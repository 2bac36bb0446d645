import Softfig.Doc.RegionLaws
import Softfig.Doc.SectionEdits

/-!
Adding a section at the end of a document, and removing one.

A section is added behind the last line. Where a fence is still open there, or where the address
holds a line break, its heading is not read, and the next call adds it again. A removal cuts the
lines of a section out; both its ends are outside fences, so what is around it is read as before.

- `added_iff`: exactly when a section that was added is the one its heading addresses;
- `regions_cut`: the regions around lines that no region overlaps;
- `outline_append`: the headings and their texts in two parts of a document;
- `removed_kept`: a removal keeps the regions, and the headings with their texts;
- `sections_upheld_iff`: the two together;
- `added_twice`: a section added to an open fence, twice.
-/

namespace Softfig.Doc

open Softfig.Queue (isWhitespace trimStart trim)
open Softfig.Lib (bind_ok_iff)

/-! ### Adding and removing -/

def addLevel (arg : Text) : Nat := (parseHeadingArg arg).1.getD 2

def headingLine (arg : Text) : Text :=
  List.replicate (addLevel arg) '#' ++ ' ' :: (parseHeadingArg arg).2

/-- The body of a section without a first line that repeats the heading, trimmed. -/
def givenBody (arg body : Text) : Text :=
  trimEnd (trimBreaks (stripRepeatedHeading body (parseHeadingArg arg).2))

def addSection (content arg body : Text) : Except SectionError Text :=
  let want := (parseHeadingArg arg).2
  if want = [] then .error .emptyHeading
  else if (headings (lines content)).any fun h => h.text = want then .error .alreadyExists
  else
    let core := trimNewlines content
    keepRegions content <|
      (if core = [] then [] else core ++ "\n\n".toList) ++ headingLine arg ++ "\n\n".toList ++
        givenBody arg body ++ ['\n']

/-- The lines of the addressed section. -/
def sectionRange (content arg : Text) : Except SectionError (Nat × Nat) := do
  let target ← addressed (lines content) arg
  return (target.line, spanEnd (lines content).length (headings (lines content)) target)

/-- What is left without the lines of `[start, stop)`. At the end of the document a blank line
before them goes with them, and the last line stays where it is empty. -/
def cutLines (ls : List Text) (start stop : Nat) : List Text :=
  if ls.length ≤ stop then
    let first := if 0 < start ∧ isBlankLine (ls.getD (start - 1) []) then start - 1 else start
    let last := if ls.getLast? = some [] then stop - 1 else stop
    ls.take first ++ ls.drop last
  else ls.take start ++ ls.drop stop

def removeSection (content arg : Text) : Except SectionError Text := do
  let range ← sectionRange content arg
  let hs := headings (lines content)
  if (hs.filter fun h => range.1 ≤ h.line && h.line < range.2).length = hs.length then
    .error .lastSection
  else .ok (join (cutLines (lines content) range.1 range.2))

/-! ### The heading that is added -/

section

variable {arg : Text}

theorem addLevel_bounds (arg : Text) : 1 ≤ addLevel arg ∧ addLevel arg ≤ 6 := by
  rw [addLevel, parseHeadingArg]
  dsimp only
  split_ifs
  · rw [Option.getD_some]
    omega
  · exact ⟨by decide, by decide⟩

theorem trim_want (arg : Text) : trim (parseHeadingArg arg).2 = (parseHeadingArg arg).2 :=
  trim_trim _

/-- The address is read back from the heading line. -/
theorem parseHeadingLine_headingLine (arg : Text) :
    parseHeadingLine (headingLine arg) = some (addLevel arg, (parseHeadingArg arg).2) := by
  obtain ⟨hpos, hle⟩ := addLevel_bounds arg
  have hstart : trimStart (headingLine arg) = headingLine arg := by
    obtain ⟨n, hn⟩ := Nat.exists_eq_add_of_le' hpos
    rw [headingLine, hn, List.replicate_succ, List.cons_append, trimStart,
      List.dropWhile_cons_of_neg (by decide)]
  have hcount : hashCount (headingLine arg) = addLevel arg := by
    rw [hashCount, headingLine, List.takeWhile_append_of_pos]
    · rw [List.takeWhile_cons_of_neg (by decide), List.append_nil, List.length_replicate]
    · intro c hc
      rw [List.eq_of_mem_replicate hc]
      rfl
  have hdrop : (headingLine arg).drop (addLevel arg) = ' ' :: (parseHeadingArg arg).2 := by
    rw [headingLine, List.drop_left' List.length_replicate]
  have htrim : trim (' ' :: (parseHeadingArg arg).2) = (parseHeadingArg arg).2 := by
    have hspace : trimStart (' ' :: (parseHeadingArg arg).2) = trimStart (parseHeadingArg arg).2 :=
      List.dropWhile_cons_of_pos (by decide)
    rw [trim, hspace]
    exact trim_want arg
  have hnot : (decide (addLevel arg = 0) || decide (6 < addLevel arg)) = false := by
    simp only [Bool.or_eq_false_iff, decide_eq_false_iff_not]
    omega
  rw [parseHeadingLine, hstart]
  simp only [hcount, hdrop, htrim, hnot, Bool.false_eq_true, if_false, if_true]

theorem isFence_headingLine (arg : Text) : isFence (headingLine arg) = false := by
  obtain ⟨n, hn⟩ := Nat.exists_eq_add_of_le' (addLevel_bounds arg).1
  rw [isFence, headingLine, hn, List.replicate_succ, List.cons_append, trimStart,
    List.dropWhile_cons_of_neg (by decide)]
  rfl

/-- The text of a heading is on its line. -/
theorem newline_notMem_heading {content : Text} {h : Heading}
    (hmem : h ∈ headings (lines content)) :
    '\n' ∉ h.text := by
  obtain ⟨-, l, hl, -, -, hparse⟩ := mem_headingsFrom hmem
  have hline := newline_notMem_lines content l (List.mem_of_getElem? hl)
  intro hnewline
  refine hline ?_
  unfold parseHeadingLine at hparse
  simp only at hparse
  split at hparse
  · cases hparse
  · split at hparse
    · have htext : [] = h.text := congrArg Prod.snd (Option.some.inj hparse)
      rw [← htext] at hnewline
      cases hnewline
    · rename_i c rest hdrop
      split at hparse
      · have htext : trim (c :: rest) = h.text := congrArg Prod.snd (Option.some.inj hparse)
        rw [← htext] at hnewline
        have hrest := mem_of_mem_trim hnewline
        rw [← hdrop] at hrest
        exact (List.dropWhile_sublist _).subset (List.mem_of_mem_drop hrest)
      · cases hparse

end

/-! ### What was added -/

/-- The section of the address: it is the only one, its lines are a blank line, the body and a
blank line, and it is not added again. -/
structure Added (arg body out : Text) : Prop where
  found : ∃ target, addressed (lines out) arg = .ok target ∧
    slice (lines out) (target.line + 1)
        (spanEnd (lines out).length (headings (lines out)) target) =
      [[]] ++ lines (givenBody arg body) ++ [[]]
  once : ∀ arg' body', (parseHeadingArg arg').2 = (parseHeadingArg arg).2 →
    addSection out arg' body' = .error .alreadyExists

/-- The document takes the section: every fence is closed, the address is one line, and the body
has no heading of its text, and none of its level or a higher one. -/
structure Takes (content arg body : Text) : Prop where
  closed : fenceAfter false (lines content) = false
  line : '\n' ∉ (parseHeadingArg arg).2
  body : ∀ h ∈ headings (lines (givenBody arg body)),
    h.text ≠ (parseHeadingArg arg).2 ∧ addLevel arg < h.level

section

variable {content arg body out : Text}

/-- An accepted addition is of a new heading, at the end. -/
theorem addSection_ok (h : addSection content arg body = .ok out) :
    (parseHeadingArg arg).2 ≠ [] ∧ Silent (parseHeadingArg arg).2 false (lines content) ∧
      lines out = appendLead content ++ lines (headingLine arg) ++ [[]] ++
        lines (givenBody arg body) ++ [[]] := by
  rw [addSection] at h
  dsimp only at h
  split_ifs at h with hwant hany hcore
  all_goals
    refine ⟨hwant, fun k hk hsame => hany ?_, ?_⟩
    · exact List.any_eq_true.mpr ⟨k, hk, decide_eq_true hsame⟩
  · rw [keepRegions_ok h, appendLead, if_pos hcore, List.nil_append, List.nil_append]
    have hsplit : headingLine arg ++ "\n\n".toList ++ givenBody arg body ++ ['\n'] =
        headingLine arg ++ '\n' :: ([] ++ '\n' :: (givenBody arg body ++ '\n' :: [])) := by
      simp
    rw [hsplit, lines_append, lines_append, lines_append, lines_nil]
    simp
  · rw [keepRegions_ok h, appendLead, if_neg hcore]
    have hsplit : trimNewlines content ++ "\n\n".toList ++ headingLine arg ++ "\n\n".toList ++
        givenBody arg body ++ ['\n'] =
        trimNewlines content ++ '\n' :: ([] ++ '\n' :: (headingLine arg ++
          '\n' :: ([] ++ '\n' :: (givenBody arg body ++ '\n' :: [])))) := by
      simp
    rw [hsplit, lines_append, lines_append, lines_append, lines_append, lines_append, lines_nil]
    simp

/-- What comes before the heading brings no fence and no heading of its own. -/
theorem appendLead_fence (content : Text) :
    fenceAfter false (appendLead content) = fenceAfter false (lines content) := by
  obtain ⟨gap, hgap, hlines⟩ := lines_trimNewlines content
  have hplain : ∀ l ∈ gap, Plain l := fun l hl => hgap l hl ▸ .nil
  rw [hlines, fenceAfter_append, fenceAfter_plain hplain, appendLead]
  split
  · rename_i hnil
    rw [hnil]
    rfl
  · rw [fenceAfter_append, fenceAfter_plain (by simpa using Plain.nil)]

theorem appendLead_silent {want : Text} (h : Silent want false (lines content)) :
    Silent want false (appendLead content) := by
  obtain ⟨gap, -, hlines⟩ := lines_trimNewlines content
  rw [hlines] at h
  unfold appendLead
  split
  · exact fun k hk => absurd hk List.not_mem_nil
  · exact h.left.append (silent_quiet quiet_gap _)

/-- The headings of the lines behind an added heading are those of its body. -/
theorem mem_headings_block {h : Heading} :
    h ∈ headings ([[]] ++ lines (givenBody arg body) ++ [[]]) ↔
      ∃ k ∈ headings (lines (givenBody arg body)), k.shift 1 = h := by
  have hgap (inFence : Bool) (i : Nat) : headingsFrom inFence i [[]] = [] := by
    cases inFence <;> rfl
  rw [headings, headingsFrom_append, headingsFrom_append, hgap, hgap, List.append_nil,
    List.nil_append, List.length_singleton, Nat.zero_add, ← Nat.add_zero 1, headingsFrom_shift]
  exact List.mem_map

/-- The headings of a document with a section added: those before, the one added where no fence is
open, and those of the body. -/
theorem headings_added {front rest : List Text} (hfence : fenceAfter false front = false) :
    headings (front ++ headingLine arg :: rest) =
      headings front ++ ⟨front.length, addLevel arg, (parseHeadingArg arg).2⟩ ::
        (headings rest).map (Heading.shift (front.length + 1)) := by
  rw [headings, headingsFrom_append, hfence, Nat.zero_add, headingsFrom, isFence_headingLine,
    parseHeadingLine_headingLine]
  simp only [Bool.false_eq_true, if_false]
  rw [← Nat.add_zero (front.length + 1), headingsFrom_shift]
  rfl

theorem once_of_addressed {target : Heading} (h : addressed (lines out) arg = .ok target)
    (arg' body' : Text) (hsame : (parseHeadingArg arg').2 = (parseHeadingArg arg).2) :
    addSection out arg' body' = .error .alreadyExists := by
  obtain ⟨hne, htext, -, hmem⟩ := addressed_ok h
  rw [← hsame] at htext
  have hany : ((headings (lines out)).any fun h => h.text = (parseHeadingArg arg').2) = true :=
    List.any_eq_true.mpr ⟨target, hmem, decide_eq_true htext.symm⟩
  have hwant : (parseHeadingArg arg').2 ≠ [] := by
    rw [htext]
    exact hne
  rw [addSection]
  dsimp only
  rw [if_neg hwant, if_pos hany]

theorem lines_headingLine (h : '\n' ∉ (parseHeadingArg arg).2) :
    lines (headingLine arg) = [headingLine arg] := by
  refine lines_line fun hmem => ?_
  rcases List.mem_append.mp hmem with hmem | hmem
  · exact absurd (List.eq_of_mem_replicate hmem) (by decide)
  · rcases List.mem_cons.mp hmem with hmem | hmem
    · exact absurd hmem (by decide)
    · exact h hmem

/-- The section added last ends with the document, where no heading behind it is of its level or a
higher one. -/
theorem spanEnd_added {front rest : List Text} (hfence : fenceAfter false front = false)
    (hrest : ∀ h ∈ headings rest, addLevel arg < h.level) :
    spanEnd (front ++ headingLine arg :: rest).length
        (headings (front ++ headingLine arg :: rest))
        ⟨front.length, addLevel arg, (parseHeadingArg arg).2⟩ =
      (front ++ headingLine arg :: rest).length := by
  rw [spanEnd, headings_added hfence]
  have hnone : (headings front ++ ⟨front.length, addLevel arg, (parseHeadingArg arg).2⟩ ::
      (headings rest).map (Heading.shift (front.length + 1))).find? (fun h =>
        decide (front.length < h.line) && decide (h.level ≤ addLevel arg)) = none := by
    rw [List.find?_eq_none]
    intro h hmem hfound
    obtain ⟨hbehind, hlevel⟩ := Bool.and_eq_true_iff.mp hfound
    have hbehind := of_decide_eq_true hbehind
    have hlevel := of_decide_eq_true hlevel
    rcases List.mem_append.mp hmem with hmem | hmem
    · have hlt := headingsFrom_lt hmem
      omega
    · rcases List.mem_cons.mp hmem with rfl | hmem
      · exact absurd hbehind (Nat.lt_irrefl _)
      · obtain ⟨k, hk, rfl⟩ := List.mem_map.mp hmem
        exact absurd hlevel (Nat.not_le.mpr (hrest k hk))
  rw [hnone]
  rfl

theorem slice_added {front rest : List Text} :
    slice (front ++ headingLine arg :: rest) (front.length + 1)
      (front ++ headingLine arg :: rest).length = rest := by
  rw [slice, List.take_length, ← List.drop_drop, List.drop_left]
  rfl

/-- A document that takes a section has it, with its body. -/
theorem Takes.added (htakes : Takes content arg body)
    (h : addSection content arg body = .ok out) : Added arg body out := by
  obtain ⟨hwant, hsilent, hlines⟩ := addSection_ok h
  have hfence : fenceAfter false (appendLead content) = false := by
    rw [appendLead_fence]
    exact htakes.closed
  have hlines : lines out = appendLead content ++ headingLine arg ::
      ([[]] ++ lines (givenBody arg body) ++ [[]]) := by
    rw [hlines, lines_headingLine htakes.line]
    simp
  have hlevel : ∀ h ∈ headings ([[]] ++ lines (givenBody arg body) ++ [[]]),
      h.text ≠ (parseHeadingArg arg).2 ∧ addLevel arg < h.level := by
    intro h hmem
    obtain ⟨k, hk, rfl⟩ := mem_headings_block.mp hmem
    exact htakes.body k hk
  have haddressed : addressed (lines out) arg =
      .ok ⟨(appendLead content).length, addLevel arg, (parseHeadingArg arg).2⟩ := by
    have hfront : (headings (appendLead content)).filter
        (fun h => h.text = (parseHeadingArg arg).2) = [] :=
      silent_iff_filter.mp (appendLead_silent hsilent)
    have hblock : (headings ([[]] ++ lines (givenBody arg body) ++ [[]])).filter
        (fun h => h.text = (parseHeadingArg arg).2) = [] :=
      silent_iff_filter.mp fun k hk => (hlevel k hk).1
    have hrest : ((headings ([[]] ++ lines (givenBody arg body) ++ [[]])).map
        (Heading.shift ((appendLead content).length + 1))).filter
          (fun h => h.text = (parseHeadingArg arg).2) = [] := by
      rw [filter_shift, hblock]
      rfl
    rw [addressed, if_neg hwant, findUnique_ok_iff, hlines, headings_added hfence,
      List.filter_append, List.filter_cons_of_pos (by simp), hrest]
    rw [hfront, List.nil_append]
  refine ⟨⟨_, haddressed, ?_⟩, once_of_addressed haddressed⟩
  rw [hlines, spanEnd_added hfence fun k hk => (hlevel k hk).2, slice_added]

/-- A section that has the body given has no heading of its level in it, and is the only one with
its text. -/
theorem Added.takes (hadded : Added arg body out)
    (h : addSection content arg body = .ok out) : Takes content arg body := by
  obtain ⟨hwant, hsilent, hlines⟩ := addSection_ok h
  obtain ⟨target, haddressed, hslice⟩ := hadded.found
  obtain ⟨-, htext, hunique, hmem⟩ := addressed_ok haddressed
  have hline : '\n' ∉ (parseHeadingArg arg).2 := by
    rw [htext]
    exact newline_notMem_heading hmem
  have hlines : lines out = appendLead content ++ headingLine arg ::
      ([[]] ++ lines (givenBody arg body) ++ [[]]) := by
    rw [hlines, lines_headingLine hline]
    simp
  generalize hrest : ([[]] ++ lines (givenBody arg body) ++ [[]] : List Text) = rest
    at hslice hlines
  have hpos : 0 < rest.length := by
    rw [← hrest]
    simp
  have hstop : spanEnd (lines out).length (headings (lines out)) target ≤ (lines out).length :=
    (Window.span hmem).stop_le
  have hlength := congrArg List.length hslice
  have hall := congrArg List.length hlines
  rw [slice, List.length_drop, List.length_take, Nat.min_eq_left hstop] at hlength
  rw [List.length_append, List.length_cons] at hall
  -- the section is too long to begin behind the heading added, and its text is new before it
  have htarget : target.line = (appendLead content).length := by
    by_contra hne
    have hfront : target ∈ headings (appendLead content) := by
      rw [hlines, headings, headingsFrom_append, List.mem_append] at hmem
      refine hmem.resolve_right fun hbehind => ?_
      have hle := (mem_headingsFrom hbehind).1
      omega
    exact appendLead_silent hsilent target hfront htext.symm
  have hfence : fenceAfter false (appendLead content) = false := by
    have hclosed := (fence_heading hmem).1
    rw [htarget, hlines, List.take_left] at hclosed
    exact hclosed
  have hend : spanEnd (lines out).length (headings (lines out)) target = (lines out).length := by
    omega
  have hlevel : target.level = addLevel arg := by
    obtain ⟨-, l, hl, -, -, hparse⟩ := mem_headingsFrom hmem
    rw [Nat.sub_zero, htarget, hlines, List.getElem?_append_right (le_refl _), Nat.sub_self,
      List.getElem?_cons_zero] at hl
    rw [← Option.some.inj hl, parseHeadingLine_headingLine] at hparse
    exact (congrArg Prod.fst (Option.some.inj hparse)).symm
  have hbehind : ∀ k ∈ headings (lines (givenBody arg body)),
      (k.shift 1).shift ((appendLead content).length + 1) ∈ headings (lines out) := by
    intro k hk
    have hblock := (@mem_headings_block arg body (k.shift 1)).mpr ⟨k, hk, rfl⟩
    rw [hrest] at hblock
    rw [hlines, headings_added hfence]
    exact List.mem_append_right _ (List.mem_cons_of_mem _ (List.mem_map_of_mem hblock))
  refine ⟨by rw [← appendLead_fence]; exact hfence, hline, fun k hk => ⟨?_, ?_⟩⟩
  · intro hsame
    have hfilter : (k.shift 1).shift ((appendLead content).length + 1) ∈
        (headings (lines out)).filter fun h => h.text = target.text := by
      refine List.mem_filter.mpr ⟨hbehind k hk, decide_eq_true ?_⟩
      rw [← htext]
      exact hsame
    rw [findUnique_ok_iff.mp hunique, List.mem_singleton] at hfilter
    have hlines' := congrArg Heading.line hfilter
    rw [htarget] at hlines'
    simp only [Heading.shift] at hlines'
    omega
  · by_contra hle
    rw [spanEnd] at hend
    have hfound : ((headings (lines out)).find? fun h =>
        decide (target.line < h.line) && decide (h.level ≤ target.level)).isSome = true := by
      rw [List.find?_isSome]
      refine ⟨_, hbehind k hk, ?_⟩
      rw [Bool.and_eq_true, decide_eq_true_eq, decide_eq_true_eq, htarget, hlevel]
      simp only [Heading.shift]
      exact ⟨by omega, Nat.le_of_not_lt hle⟩
    obtain ⟨next, hnext⟩ := Option.isSome_iff_exists.mp hfound
    rw [hnext] at hend
    have hlt := headingsFrom_lt (List.mem_of_find?_eq_some hnext)
    simp only [Option.map_some, Option.getD_some] at hend
    omega

end

/-! ### The regions around a cut -/

/-- The tag of the first region with a line of `[start, stop)`. -/
def overlappingRegion (content : Text) (start stop : Nat) : Option Text :=
  ((spansOf (lines content)).find? fun s =>
    start < s.closeLine + 1 && s.openLine < stop).map (·.tag)

section

variable {pairs rest : List (Text × Bool)} {pre sec post ls : List Text}

/-- Where a part leaves a region open that the rest closes, some region goes across. -/
theorem span_across {i skip : Nat} (hskip : skip ≤ pairs.length) {tag : Text}
    (htag : tag ∈ danglingFrom skip pairs) {p : Text × Bool} (hp : p ∈ rest)
    (hcloses : closesAt tag p = true) :
    ∃ s ∈ spansFrom i skip (pairs ++ rest),
      s.openLine < i + pairs.length ∧ i + pairs.length ≤ s.closeLine := by
  induction pairs generalizing i skip with
  | nil => cases skip <;> cases htag
  | cons q pairs ih =>
    have hlength : i + (q :: pairs).length = i + 1 + pairs.length := by
      rw [List.length_cons]
      omega
    rw [hlength]
    obtain ⟨l, fenced⟩ := q
    cases skip with
    | succ skip => exact ih (Nat.le_of_succ_le_succ hskip) htag
    | zero =>
      simp only [danglingFrom] at htag
      rw [List.cons_append]
      cases hopen : openAt fenced l with
      | none =>
        simp only [hopen] at htag
        simp only [spansFrom, hopen]
        exact ih (Nat.zero_le _) htag
      | some t =>
        simp only [hopen] at htag
        cases hfound : pairs.findIdx? (closesAt t) with
        | some k =>
          simp only [hfound] at htag
          have hk := (List.findIdx?_eq_some_iff_getElem.mp hfound).1
          obtain ⟨s, hs, hacross⟩ := ih hk htag
          rw [spansFrom_closed hopen (by rw [List.findIdx?_append, hfound]; rfl)]
          exact ⟨s, List.mem_cons_of_mem _ hs, hacross⟩
        | none =>
          simp only [hfound] at htag
          cases hlater : rest.findIdx? (closesAt t) with
          | some k =>
            rw [spansFrom_closed hopen (by rw [List.findIdx?_append, hfound, hlater]; rfl)]
            refine ⟨_, List.mem_cons_self, ?_, ?_⟩
            · show i < i + 1 + pairs.length
              omega
            · show i + 1 + pairs.length ≤ i + 1 + (k + pairs.length)
              omega
          | none =>
            rw [spansFrom_unclosed hopen (by rw [List.findIdx?_append, hfound, hlater]; rfl)]
            rcases List.mem_cons.mp htag with rfl | htag
            · have hnone := List.findIdx?_eq_none_iff.mp hlater p hp
              rw [hcloses] at hnone
              cases hnone
            · exact ih (Nat.zero_le _) htag

theorem marked_sec (hsec : post = [] ∨ fenceAfter false sec = false) :
    marked false (sec ++ post) = marked false sec ++ marked false post := by
  rcases hsec with rfl | hsec
  · rw [List.append_nil, marked_nil, List.append_nil]
  · exact marked_closed hsec

/-- **The regions of a document that has lines cut out which no region overlaps.** -/
theorem regions_cut (hpre : fenceAfter false pre = false)
    (hsec : post = [] ∨ fenceAfter false sec = false)
    (hclear : ∀ s ∈ spansOf (pre ++ sec ++ post),
      s.closeLine < pre.length ∨ pre.length + sec.length ≤ s.openLine) :
    regionsOf (pre ++ post) = regionsOf (pre ++ sec ++ post) := by
  have hmarked : (pre ++ sec ++ post).zip (fenceMask false (pre ++ sec ++ post)) =
      marked false pre ++ (marked false sec ++ marked false post) := by
    rw [List.append_assoc, ← marked_sec hsec, ← marked_closed hpre]
    rfl
  rw [spansOf, hmarked] at hclear
  have hfront : ∀ tag ∈ dangling pre, ¬Closes (sec ++ post) tag := by
    rintro tag htag ⟨p, hp, hcloses⟩
    rw [marked_sec hsec] at hp
    obtain ⟨s, hs, hopen, hclose⟩ := @span_across _ _ 0 _ (Nat.zero_le _) _ htag _ hp hcloses
    rw [Nat.zero_add, marked_length] at hopen hclose
    have hor := hclear s hs
    omega
  have hspans := spans_append 0 (Nat.zero_le _) fun tag htag p hp =>
    Bool.eq_false_iff.mpr fun hcloses => hfront tag htag ⟨p, (marked_sec hsec).symm ▸ hp, hcloses⟩
  rw [marked_length, Nat.zero_add] at hspans
  rw [hspans] at hclear
  have hmiddle : ∀ tag ∈ dangling sec, ¬Closes post tag := by
    rintro tag htag ⟨p, hp, hcloses⟩
    obtain ⟨s, hs, hopen, hclose⟩ :=
      @span_across _ _ pre.length _ (Nat.zero_le _) _ htag _ hp hcloses
    rw [marked_length] at hopen hclose
    have hor := hclear s (List.mem_append_right _ hs)
    omega
  have hnone : regionsOf sec = [] := by
    have hspans' := spans_append pre.length (Nat.zero_le _) fun tag htag p hp =>
      Bool.eq_false_iff.mpr fun hcloses => hmiddle tag htag ⟨p, hp, hcloses⟩
    rw [regionsOf, regionsFrom_eq pre.length, List.map_eq_nil_iff, List.eq_nil_iff_forall_not_mem]
    intro s hs
    obtain ⟨hle, hlt, ⟨l, hl⟩, -⟩ := mem_spansFrom hs
    have hin := (List.getElem?_eq_some_iff.mp hl).1
    rw [marked_length] at hin
    have hin' : s ∈ spansFrom pre.length 0 (marked false sec ++ marked false post) := by
      rw [hspans']
      exact List.mem_append_left _ hs
    have hor := hclear s (List.mem_append_right _ hin')
    omega
  have hpost : ∀ tag ∈ dangling pre, ¬Closes post tag := by
    rintro tag htag ⟨p, hp, hcloses⟩
    refine hfront tag htag ⟨p, ?_, hcloses⟩
    rw [marked_sec hsec]
    exact List.mem_append_right _ hp
  have hrest : regionsOf (sec ++ post) = regionsOf post := by
    rcases hsec with rfl | hsec
    · rw [List.append_nil, hnone]
      rfl
    · rw [regionsOf_append hsec hmiddle, hnone, List.nil_append]
  rw [List.append_assoc, regionsOf_append hpre hfront, regionsOf_append hpre hpost, hrest]

end

/-! ### The headings of a document in parts -/

/-- The line of the next heading whose level stops a section, or the end. -/
def stopLine (p : Nat → Nat → Bool) (ls : List Text) (h : Heading) : Nat :=
  (((headings ls).find? fun k => h.line < k.line && p h.level k.level).map (·.line)).getD ls.length

/-- What stands between a heading and a line, without blank lines around it. -/
def textTo (ls : List Text) (h : Heading) (stop : Nat) : Text :=
  join (trimBlank (slice ls (h.line + 1) stop))

/-- A heading's own text goes to the next heading. -/
def ownText (ls : List Text) (h : Heading) : Text := textTo ls h (stopLine (fun _ _ => true) ls h)

/-- A heading's body goes to the next heading of its level or a higher one. -/
def bodyText (ls : List Text) (h : Heading) : Text :=
  textTo ls h (spanEnd ls.length (headings ls) h)

/-- The headings with their levels and their own texts. -/
def outline (ls : List Text) : List (Nat × Text × Text) :=
  (headings ls).map fun h => (h.level, h.text, ownText ls h)

/-- The lines begin with a heading. -/
def Heads (level : Nat) (ls : List Text) : Prop :=
  ∃ text l rest, ls = l :: rest ∧ isFence l = false ∧ parseHeadingLine l = some (level, text)

theorem spanEnd_eq_stopLine (ls : List Text) (h : Heading) :
    spanEnd ls.length (headings ls) h = stopLine (fun level next => next ≤ level) ls h := rfl

section

variable {p : Nat → Nat → Bool} {a b ls : List Text} {h : Heading}

theorem headings_append (ha : fenceAfter false a = false) (b : List Text) :
    headings (a ++ b) = headings a ++ (headings b).map (Heading.shift a.length) := by
  have hparts := @headings_parts a b [] ha (.inl rfl)
  rw [List.append_nil, headings_behind (.inr rfl)] at hparts
  rw [hparts]
  exact List.append_nil _

theorem Heads.headings {level : Nat} (h : Heads level b) :
    ∃ first rest, Doc.headings b = first :: rest ∧ first.line = 0 ∧ first.level = level := by
  obtain ⟨text, l, rest, rfl, hfence, hparse⟩ := h
  refine ⟨⟨0, level, text⟩, headingsFrom false 1 rest, ?_, rfl, rfl⟩
  rw [Doc.headings, headingsFrom, hfence, hparse]
  rfl

theorem stopLine_le (p : Nat → Nat → Bool) (ls : List Text) (h : Heading) :
    stopLine p ls h ≤ ls.length := by
  rw [stopLine]
  cases hfind : (headings ls).find? fun k => h.line < k.line && p h.level k.level with
  | none => exact le_refl _
  | some k =>
    have hlt := headingsFrom_lt (List.mem_of_find?_eq_some hfind)
    rw [Option.map_some, Option.getD_some]
    omega

/-- A section ends in its part as it ends in the whole, where it ends in it at all. -/
theorem stopLine_front (ha : fenceAfter false a = false)
    (hle : stopLine p (a ++ b) h ≤ a.length) : stopLine p (a ++ b) h = stopLine p a h := by
  rw [stopLine, headings_append ha, List.find?_append] at hle ⊢
  rw [stopLine]
  cases hfront : (headings a).find? fun k => h.line < k.line && p h.level k.level with
  | some k => rfl
  | none =>
    rw [hfront, Option.none_or] at hle
    rw [Option.none_or]
    cases hfind : ((headings b).map (Heading.shift a.length)).find? fun k =>
        h.line < k.line && p h.level k.level with
    | none =>
      rw [hfind, Option.map_none, Option.getD_none, List.length_append] at hle
      simp only [Option.map_none, Option.getD_none, List.length_append]
      omega
    | some k =>
      obtain ⟨j, -, rfl⟩ := List.mem_map.mp (List.mem_of_find?_eq_some hfind)
      rw [hfind, Option.map_some, Option.getD_some] at hle
      simp only [Option.map_some, Option.getD_some, Option.map_none, Option.getD_none,
        Heading.shift] at hle ⊢
      omega

/-- A heading that stops a section ends it with the part before. -/
theorem stopLine_heads (ha : fenceAfter false a = false) (hmem : h ∈ headings a) {level : Nat}
    (hb : Heads level b) (hp : p h.level level = true) :
    stopLine p (a ++ b) h = stopLine p a h := by
  refine stopLine_front ha ?_
  obtain ⟨first, rest, hheadings, hline, hlevel⟩ := hb.headings
  have hlt := headingsFrom_lt hmem
  rw [stopLine, headings_append ha, List.find?_append]
  cases hfront : (headings a).find? fun k => h.line < k.line && p h.level k.level with
  | some k =>
    have hk := headingsFrom_lt (List.mem_of_find?_eq_some hfront)
    rw [Option.some_or, Option.map_some, Option.getD_some]
    omega
  | none =>
    have hfirst : (decide (h.line < (first.shift a.length).line) &&
        p h.level (first.shift a.length).level) = true := by
      simp only [Heading.shift, hline, hlevel, hp, Bool.and_true, decide_eq_true_eq]
      omega
    have hfind : ((first :: rest).map (Heading.shift a.length)).find? (fun k =>
        h.line < k.line && p h.level k.level) = some (first.shift a.length) :=
      List.find?_cons_of_pos hfirst
    rw [hheadings, hfind, Option.none_or, Option.map_some, Option.getD_some]
    simp only [Heading.shift, hline]
    omega

theorem stopLine_behind (ha : fenceAfter false a = false) (h : Heading) :
    stopLine p (a ++ b) (h.shift a.length) = a.length + stopLine p b h := by
  have hnone : (headings a).find? (fun k =>
      (h.shift a.length).line < k.line && p (h.shift a.length).level k.level) = none := by
    rw [List.find?_eq_none]
    intro k hk hmatch
    have hlt := headingsFrom_lt hk
    have hbehind : a.length + h.line < k.line :=
      of_decide_eq_true (Bool.and_eq_true_iff.mp hmatch).1
    omega
  have hsame : (fun k : Heading => decide ((h.shift a.length).line < k.line) &&
      p (h.shift a.length).level k.level) ∘ Heading.shift a.length =
      fun k => decide (h.line < k.line) && p h.level k.level := by
    funext k
    refine congrArg₂ (· && ·) (decide_eq_decide.mpr ?_) rfl
    exact Nat.add_lt_add_iff_left
  rw [stopLine, stopLine, headings_append ha, List.find?_append, hnone, Option.none_or,
    List.find?_map, hsame, List.length_append]
  cases (headings b).find? fun k => decide (h.line < k.line) && p h.level k.level with
  | none => rfl
  | some k => rfl

theorem textTo_front {stop : Nat} (hle : stop ≤ a.length) (b : List Text) (h : Heading) :
    textTo (a ++ b) h stop = textTo a h stop := by
  rw [textTo, textTo, slice_append_left hle]

theorem textTo_behind (a b : List Text) (h : Heading) (stop : Nat) :
    textTo (a ++ b) (h.shift a.length) (a.length + stop) = textTo b h stop := by
  have hslice := slice_append_right a b (h.line + 1) stop
  rw [← Nat.add_assoc] at hslice
  rw [textTo, textTo]
  exact congrArg (fun ls => join (trimBlank ls)) hslice

/-- **The outline of a document in two parts,** the second of which begins with a heading. -/
theorem outline_append (ha : fenceAfter false a = false) (hb : b = [] ∨ ∃ level, Heads level b) :
    outline (a ++ b) = outline a ++ outline b := by
  rw [outline, headings_append ha, List.map_append, List.map_map]
  refine congrArg₂ (· ++ ·) (List.map_congr_left fun h hmem => ?_)
    (List.map_congr_left fun h _ => ?_)
  · rw [ownText, ownText]
    have hstop : stopLine (fun _ _ => true) (a ++ b) h = stopLine (fun _ _ => true) a h := by
      rcases hb with rfl | ⟨level, hheads⟩
      · rw [List.append_nil]
      · exact stopLine_heads ha hmem hheads rfl
    rw [hstop, textTo_front (stopLine_le _ _ _)]
  · show (h.level, h.text, ownText (a ++ b) (h.shift a.length)) = _
    rw [ownText, ownText, stopLine_behind ha, textTo_behind]

/-! ### Blank lines at the end -/

theorem trimBlank_append {gap : List Text} (hgap : ∀ l ∈ gap, isBlankLine l = true)
    (ls : List Text) : trimBlank (ls ++ gap) = trimBlank ls := by
  have hfront : gap.dropWhile (fun l => l.all isWhitespace) = [] :=
    List.dropWhile_eq_nil_iff.mpr hgap
  have hback : gap.reverse.dropWhile (fun l => l.all isWhitespace) = [] :=
    List.dropWhile_eq_nil_iff.mpr fun l hl => hgap l (List.mem_reverse.mp hl)
  rw [trimBlank, trimBlank, List.dropWhile_append, hfront]
  cases hls : ls.dropWhile fun l => l.all isWhitespace with
  | nil => rfl
  | cons l rest =>
    rw [List.isEmpty_cons, if_neg Bool.false_ne_true, List.reverse_append, List.dropWhile_append,
      hback]
    rfl

variable {gap : List Text}

theorem headings_gap (hgap : ∀ l ∈ gap, isBlankLine l = true) (a : List Text) :
    headings (a ++ gap) = headings a := by
  have hnone : headingsFrom (fenceAfter false a) (0 + a.length) gap = [] := by
    rw [List.eq_nil_iff_forall_not_mem]
    intro h hmem
    obtain ⟨-, l, hl, -, -, hparse⟩ := mem_headingsFrom hmem
    rw [(quiet_blank (hgap l (List.mem_of_getElem? hl))).2] at hparse
    cases hparse
  rw [headings, headingsFrom_append, hnone, List.append_nil]
  rfl

/-- Blank lines at the end change no text. -/
theorem textTo_gap (hgap : ∀ l ∈ gap, isBlankLine l = true) (hmem : h ∈ headings a) :
    textTo (a ++ gap) h (stopLine p (a ++ gap) h) = textTo a h (stopLine p a h) := by
  have hlt := headingsFrom_lt hmem
  rw [stopLine, headings_gap hgap, stopLine]
  cases hfind : (headings a).find? fun k => h.line < k.line && p h.level k.level with
  | some k =>
    have hk := headingsFrom_lt (List.mem_of_find?_eq_some hfind)
    rw [Option.map_some, Option.getD_some, Option.getD_some]
    exact textTo_front (by omega) gap h
  | none =>
    rw [Option.map_none, Option.getD_none, Option.getD_none, textTo, textTo, slice, slice,
      List.take_length, List.take_length, List.drop_append_of_le_length (by omega),
      trimBlank_append hgap]

theorem outline_gap (hgap : ∀ l ∈ gap, isBlankLine l = true) (a : List Text) :
    outline (a ++ gap) = outline a := by
  rw [outline, headings_gap hgap, outline]
  refine List.map_congr_left fun h hmem => ?_
  rw [ownText, ownText, textTo_gap hgap hmem]

end

/-! ### What a removal keeps -/

/-- Every region and every other heading is kept: the regions with their tags and bodies, the
headings with their own texts, and the bodies of the sections that do not hold the removed one. -/
structure Kept (content : Text) (start stop : Nat) (out : Text) : Prop where
  regions : regions out = regions content
  outline : outline (lines out) =
    ((headings (lines content)).filter fun h => h.line < start || stop ≤ h.line).map fun h =>
      (h.level, h.text, ownText (lines content) h)
  bodies : ∀ h ∈ headings (lines content),
    spanEnd (lines content).length (headings (lines content)) h ≤ start ∨ stop ≤ h.line →
    ∃ h' ∈ headings (lines out), h'.level = h.level ∧ h'.text = h.text ∧
      bodyText (lines out) h' = bodyText (lines content) h

/-- A document around one of its sections. -/
structure Parts (ls pre sec post : List Text) (target : Heading) : Prop where
  lines : ls = pre ++ sec ++ post
  start : pre.length = target.line
  stop : (pre ++ sec).length = spanEnd ls.length (headings ls) target
  fence : fenceAfter false pre = false
  closed : post = [] ∨ fenceAfter false sec = false
  heads : Heads target.level sec
  next : post = [] ∨ ∃ level ≤ target.level, Heads level post

section

variable {ls pre sec post : List Text} {target : Heading}

/-- A heading is the first of the lines from it on. -/
theorem heads_drop {h : Heading} (hmem : h ∈ headings ls) : Heads h.level (ls.drop h.line) := by
  obtain ⟨-, l, hl, hfence, -, hparse⟩ := mem_headingsFrom hmem
  rw [Nat.sub_zero] at hl
  obtain ⟨hlt, hget⟩ := List.getElem?_eq_some_iff.mp hl
  refine ⟨h.text, l, ls.drop (h.line + 1), ?_, hfence, hparse⟩
  rw [List.drop_eq_getElem_cons hlt, hget]

theorem Heads.take {level : Nat} (h : Heads level ls) {n : Nat} (hn : 0 < n) :
    Heads level (ls.take n) := by
  obtain ⟨text, l, rest, rfl, hfence, hparse⟩ := h
  obtain ⟨n, rfl⟩ := Nat.exists_eq_add_of_le' hn
  exact ⟨text, l, rest.take n, List.take_succ_cons, hfence, hparse⟩

/-- The lines before a section, its lines, and the lines behind it. -/
theorem exists_parts (hmem : target ∈ headings ls) :
    ∃ pre sec post, Parts ls pre sec post target ∧ pre = ls.take target.line ∧
      post = ls.drop (spanEnd ls.length (headings ls) target) := by
  have hlt := lt_spanEnd hmem
  have hle := (Window.span hmem).stop_le
  have hline := headingsFrom_lt hmem
  generalize hstop : spanEnd ls.length (headings ls) target = stop at hlt hle
  have hpre : (ls.take target.line).length = target.line := by
    rw [List.length_take]
    omega
  have hnext : ls.drop stop = [] ∨ ∃ level ≤ target.level, Heads level (ls.drop stop) ∧
      fenceAfter false (ls.take stop) = false := by
    rw [spanEnd] at hstop
    cases hfind : (headings ls).find? fun k => target.line < k.line && k.level ≤ target.level with
    | none =>
      rw [hfind, Option.map_none, Option.getD_none] at hstop
      exact .inl (List.drop_eq_nil_of_le hstop.le)
    | some k =>
      rw [hfind, Option.map_some, Option.getD_some] at hstop
      have hk := List.mem_of_find?_eq_some hfind
      have hfound := List.find?_some hfind
      simp only [Bool.and_eq_true, decide_eq_true_eq] at hfound
      rw [← hstop]
      exact .inr ⟨k.level, hfound.2, heads_drop hk, (fence_heading hk).1⟩
  refine ⟨ls.take target.line, slice ls target.line stop, ls.drop stop, ?_, rfl, rfl⟩
  have htake : ls.take target.line ++ slice ls target.line stop = ls.take stop := by
    have hparts := List.take_append_drop target.line (ls.take stop)
    rw [List.take_take, Nat.min_eq_left hlt.le] at hparts
    exact hparts
  refine ⟨?_, hpre, ?_, (fence_heading hmem).1, ?_, ?_, ?_⟩
  · rw [htake, List.take_append_drop]
  · rw [htake, hstop, List.length_take, Nat.min_eq_left hle]
  · refine hnext.imp_right ?_
    rintro ⟨-, -, -, hclosed⟩
    exact fence_slice hlt.le (fence_heading hmem).1 hclosed
  · have hsec : slice ls target.line stop = (ls.drop target.line).take (stop - target.line) := by
      rw [slice, List.drop_take]
    rw [hsec]
    exact (heads_drop hmem).take (by omega)
  · refine hnext.imp_right ?_
    rintro ⟨level, hlevel, hheads, -⟩
    exact ⟨level, hlevel, hheads⟩

namespace Parts

theorem headings_eq (h : Parts ls pre sec post target) :
    headings ls = headings pre ++ (headings sec).map (Heading.shift pre.length) ++
      (headings post).map (Heading.shift (pre ++ sec).length) := by
  have hpost : headings (sec ++ post) =
      headings sec ++ (headings post).map (Heading.shift sec.length) := by
    rcases h.closed with rfl | hclosed
    · rw [List.append_nil]
      exact (List.append_nil _).symm
    · exact headings_append hclosed post
  rw [h.lines, List.append_assoc, headings_append h.fence, hpost, List.map_append, List.map_map,
    List.append_assoc, List.length_append]
  congr 3
  funext k
  simp [Heading.shift, Nat.add_assoc]

/-- The headings outside a section are those of the lines around it. -/
theorem filter_headings (h : Parts ls pre sec post target) :
    (headings ls).filter (fun k => k.line < pre.length || (pre ++ sec).length ≤ k.line) =
      headings pre ++ (headings post).map (Heading.shift (pre ++ sec).length) := by
  have hfront : (headings pre).filter (fun k => k.line < pre.length ||
      (pre ++ sec).length ≤ k.line) = headings pre := by
    refine List.filter_eq_self.mpr fun k hk => ?_
    have hlt := headingsFrom_lt hk
    rw [Bool.or_eq_true, decide_eq_true_eq]
    omega
  have hmiddle : ((headings sec).map (Heading.shift pre.length)).filter (fun k =>
      k.line < pre.length || (pre ++ sec).length ≤ k.line) = [] := by
    refine List.filter_eq_nil_iff.mpr fun k hk => ?_
    obtain ⟨j, hj, rfl⟩ := List.mem_map.mp hk
    have hlt := headingsFrom_lt hj
    rw [Bool.or_eq_true, decide_eq_true_eq, decide_eq_true_eq, List.length_append]
    simp only [Heading.shift]
    omega
  have hback : ((headings post).map (Heading.shift (pre ++ sec).length)).filter (fun k =>
      k.line < pre.length || (pre ++ sec).length ≤ k.line) =
      (headings post).map (Heading.shift (pre ++ sec).length) := by
    refine List.filter_eq_self.mpr fun k hk => ?_
    obtain ⟨j, -, rfl⟩ := List.mem_map.mp hk
    rw [Bool.or_eq_true, decide_eq_true_eq, decide_eq_true_eq]
    simp only [Heading.shift]
    omega
  rw [h.headings_eq, List.filter_append, List.filter_append, hfront, hmiddle, hback,
    List.append_nil]

/-- What is behind a section is read as it is alone. -/
theorem fence_through (h : Parts ls pre sec post target) (hpost : post ≠ []) :
    fenceAfter false (pre ++ sec) = false := by
  rw [fenceAfter_append, h.fence]
  exact h.closed.resolve_left hpost

theorem heads_rest (h : Parts ls pre sec post target) : Heads target.level (sec ++ post) := by
  obtain ⟨text, l, rest, hsec, hfence, hparse⟩ := h.heads
  exact ⟨text, l, rest ++ post, by rw [hsec]; rfl, hfence, hparse⟩

/-- The own texts of the headings outside a section. -/
theorem outline_outside (h : Parts ls pre sec post target) :
    (((headings ls).filter fun k => k.line < pre.length || (pre ++ sec).length ≤ k.line).map
      fun k => (k.level, k.text, ownText ls k)) = outline pre ++ outline post := by
  rw [h.filter_headings, List.map_append, List.map_map]
  refine congrArg₂ (· ++ ·) (List.map_congr_left fun k hk => ?_)
    (List.map_congr_left fun k hk => ?_)
  · rw [h.lines, List.append_assoc, ownText, stopLine_heads h.fence hk h.heads_rest rfl,
      textTo_front (stopLine_le _ _ _), ownText]
  · have hpost : post ≠ [] := by
      rintro rfl
      cases hk
    show (k.level, k.text, ownText ls (k.shift (pre ++ sec).length)) = _
    rw [h.lines, ownText, stopLine_behind (h.fence_through hpost), textTo_behind, ownText]

/-- The bodies of the sections behind the section. -/
theorem bodyText_behind (h : Parts ls pre sec post target) {k : Heading} (hk : k ∈ headings post) :
    bodyText ls (k.shift (pre ++ sec).length) = bodyText post k := by
  have hpost : post ≠ [] := by
    rintro rfl
    cases hk
  rw [bodyText, bodyText, spanEnd_eq_stopLine, spanEnd_eq_stopLine, h.lines,
    stopLine_behind (h.fence_through hpost), textTo_behind]

/-- The bodies of the sections that end before the section. -/
theorem bodyText_before (h : Parts ls pre sec post target) {k : Heading}
    (hend : spanEnd ls.length (headings ls) k ≤ pre.length) : bodyText ls k = bodyText pre k := by
  rw [bodyText, bodyText]
  rw [spanEnd_eq_stopLine, h.lines, List.append_assoc] at hend ⊢
  rw [stopLine_front h.fence hend, spanEnd_eq_stopLine, textTo_front (stopLine_le _ _ _)]

/-- A section that ends before the section ends at a heading before it, or at its heading. -/
theorem ends_before (h : Parts ls pre sec post target) {k : Heading}
    (hend : spanEnd ls.length (headings ls) k ≤ pre.length) :
    (∃ m ∈ headings pre, k.line < m.line ∧ m.level ≤ k.level) ∨ target.level ≤ k.level := by
  obtain ⟨text, l, rest, hrest, -, hparse⟩ := h.heads_rest
  have hls : ls = pre ++ l :: rest := by
    rw [h.lines, List.append_assoc, hrest]
  rw [spanEnd] at hend
  cases hfind : (headings ls).find? fun m => k.line < m.line && m.level ≤ k.level with
  | none =>
    rw [hfind, Option.map_none, Option.getD_none, hls, List.length_append, List.length_cons] at hend
    omega
  | some m =>
    have hfound := List.find?_some hfind
    simp only [Bool.and_eq_true, decide_eq_true_eq] at hfound
    rw [hfind, Option.map_some, Option.getD_some] at hend
    have hm := List.mem_of_find?_eq_some hfind
    rcases Nat.lt_or_eq_of_le hend with hlt | heq
    · left
      refine ⟨m, ?_, hfound⟩
      rw [hls, headings, headingsFrom_append, List.mem_append] at hm
      refine hm.resolve_right fun hbehind => ?_
      have hle := (mem_headingsFrom hbehind).1
      omega
    · right
      obtain ⟨-, l', hl', -, -, hparse'⟩ := mem_headingsFrom hm
      rw [Nat.sub_zero, heq, hls, List.getElem?_append_right (le_refl _), Nat.sub_self,
        List.getElem?_cons_zero] at hl'
      rw [← Option.some.inj hl', hparse] at hparse'
      have hlevel : target.level = m.level := congrArg Prod.fst (Option.some.inj hparse')
      rw [hlevel]
      exact hfound.2

/-- The bodies of the sections that end before the section are the same without it. -/
theorem bodyText_joined (h : Parts ls pre sec post target) {k : Heading} (hk : k ∈ headings pre)
    (hend : spanEnd ls.length (headings ls) k ≤ pre.length) :
    bodyText (pre ++ post) k = bodyText ls k := by
  rw [h.bodyText_before hend, bodyText, bodyText, spanEnd_eq_stopLine, spanEnd_eq_stopLine]
  have hstop : stopLine (fun level next => next ≤ level) (pre ++ post) k =
      stopLine (fun level next => next ≤ level) pre k := by
    rcases h.ends_before hend with ⟨m, hm, hbehind, hlevel⟩ | hlevel
    · refine stopLine_front h.fence ?_
      rw [stopLine, headings_append h.fence, List.find?_append]
      have hfound : ((headings pre).find? fun m =>
          decide (k.line < m.line) && decide (m.level ≤ k.level)).isSome = true := by
        refine List.find?_isSome.mpr ⟨m, hm, ?_⟩
        rw [Bool.and_eq_true, decide_eq_true_eq, decide_eq_true_eq]
        exact ⟨hbehind, hlevel⟩
      obtain ⟨next, hnext⟩ := Option.isSome_iff_exists.mp hfound
      rw [hnext, Option.some_or, Option.map_some, Option.getD_some]
      have hlt := headingsFrom_lt (List.mem_of_find?_eq_some hnext)
      omega
    · rcases h.next with rfl | ⟨level, hle, hheads⟩
      · rw [List.append_nil]
      · exact stopLine_heads h.fence hk hheads (decide_eq_true (hle.trans hlevel))
  rw [hstop, textTo_front (stopLine_le _ _ _)]

end Parts

/-- The last line of a part, where it is blank, goes with what is cut out behind it. -/
theorem take_gap (htake : ls.take pre.length = pre) :
    ∃ gap, pre = ls.take (if 0 < pre.length ∧ isBlankLine (ls.getD (pre.length - 1) [])
        then pre.length - 1 else pre.length) ++ gap ∧ ∀ l ∈ gap, isBlankLine l = true := by
  split
  · rename_i hblank
    obtain ⟨hpos, hblank⟩ := hblank
    obtain ⟨n, hn⟩ := Nat.exists_eq_add_of_le' hpos
    rw [hn, Nat.add_sub_cancel] at hblank
    rw [hn, List.take_add_one] at htake
    rw [hn, Nat.add_sub_cancel]
    refine ⟨ls[n]?.toList, htake.symm, fun l hl => ?_⟩
    rw [List.getD_eq_getElem?_getD, Option.mem_toList.mp hl] at hblank
    exact hblank
  · exact ⟨[], by rw [htake, List.append_nil], fun l hl => absurd hl List.not_mem_nil⟩

/-- The empty last line of a document stays. -/
theorem drop_tail :
    ∀ l ∈ ls.drop (if ls.getLast? = some [] then ls.length - 1 else ls.length),
      isBlankLine l = true := by
  split
  · rename_i hlast
    obtain ⟨init, rfl⟩ := List.getLast?_eq_some_iff.mp hlast
    rw [List.length_append, List.length_singleton, Nat.add_sub_cancel, List.drop_left]
    intro l hl
    rw [List.mem_singleton.mp hl]
    rfl
  · rw [List.drop_length]
    exact fun l hl => absurd hl List.not_mem_nil

/-- What a cut leaves: the lines around it, but for blank lines at the end of the document. -/
theorem cutLines_eq (h : Parts ls pre sec post target) :
    ∃ kept gap tail, pre = kept ++ gap ∧
      cutLines ls pre.length (pre ++ sec).length = kept ++ tail ++ post ∧
      (∀ l ∈ gap, isBlankLine l = true) ∧ (∀ l ∈ tail, isBlankLine l = true) ∧
      (post = [] ∨ gap = [] ∧ tail = []) := by
  have hlength : ls.length = (pre ++ sec).length + post.length := by
    rw [h.lines, List.length_append]
  have htake : ls.take pre.length = pre := by
    rw [h.lines, List.append_assoc, List.take_left]
  by_cases hpost : post = []
  · subst hpost
    obtain ⟨gap, hpre, hgap⟩ := take_gap htake
    refine ⟨_, gap, _, hpre, ?_, hgap, @drop_tail ls, .inl rfl⟩
    rw [List.length_nil, Nat.add_zero] at hlength
    rw [cutLines, ← hlength, if_pos (le_refl _), List.append_nil]
  · have hnot : ¬ ls.length ≤ (pre ++ sec).length := by
      have hpos := List.length_pos_of_ne_nil hpost
      omega
    have hdrop : ls.drop (pre ++ sec).length = post := by
      rw [h.lines, List.drop_left]
    refine ⟨pre, [], [], (List.append_nil _).symm, ?_, ?_, ?_, .inr ⟨rfl, rfl⟩⟩
    · rw [cutLines, if_neg hnot, htake, hdrop, List.append_nil]
    · exact fun l hl => absurd hl List.not_mem_nil
    · exact fun l hl => absurd hl List.not_mem_nil

theorem mem_of_mem_cutLines {l : Text} {start stop : Nat} (h : l ∈ cutLines ls start stop) :
    l ∈ ls := by
  rw [cutLines] at h
  split_ifs at h
  all_goals
    rcases List.mem_append.mp h with h | h
    · exact List.mem_of_mem_take h
    · exact List.mem_of_mem_drop h

/-- Blank lines behind a part change no region. -/
theorem regionsOf_gap {a gap : List Text} (ha : fenceAfter false a = false)
    (hgap : ∀ l ∈ gap, isBlankLine l = true) : regionsOf (a ++ gap) = regionsOf a :=
  (scansAs_plain_right ha fun l hl => .of_blank (hgap l hl)).regions

namespace Parts

theorem outline_cut (h : Parts ls pre sec post target) :
    outline (cutLines ls pre.length (pre ++ sec).length) = outline pre ++ outline post := by
  obtain ⟨kept, gap, tail, hpre, hcut, hgap, htail, hends⟩ := cutLines_eq h
  rw [hcut]
  rcases hends with rfl | ⟨rfl, rfl⟩
  · rw [List.append_nil, outline_gap htail, hpre, outline_gap hgap]
    exact (List.append_nil _).symm
  · rw [List.append_nil] at hpre ⊢
    rw [← hpre]
    refine outline_append h.fence (h.next.imp_right ?_)
    rintro ⟨level, -, hheads⟩
    exact ⟨level, hheads⟩

theorem regions_cut (h : Parts ls pre sec post target)
    (hclear : ∀ s ∈ spansOf ls,
      s.closeLine < pre.length ∨ pre.length + sec.length ≤ s.openLine) :
    regionsOf (cutLines ls pre.length (pre ++ sec).length) = regionsOf ls := by
  rw [h.lines] at hclear
  have hregions := Doc.regions_cut h.fence h.closed hclear
  rw [← h.lines] at hregions
  obtain ⟨kept, gap, tail, hpre, hcut, hgap, htail, hends⟩ := cutLines_eq h
  have hkept : fenceAfter false kept = false := by
    have hfence := h.fence
    rwa [hpre, fenceAfter_append, fenceAfter_plain fun l hl => .of_blank (hgap l hl)] at hfence
  rw [hcut, ← hregions]
  rcases hends with rfl | ⟨rfl, rfl⟩
  · rw [List.append_nil, List.append_nil, regionsOf_gap hkept htail, hpre, regionsOf_gap hkept hgap]
  · rw [List.append_nil] at hpre ⊢
    rw [hpre]

theorem bodies_cut (h : Parts ls pre sec post target) {k : Heading} (hk : k ∈ headings ls)
    (hend : spanEnd ls.length (headings ls) k ≤ pre.length ∨ (pre ++ sec).length ≤ k.line) :
    ∃ k' ∈ headings (cutLines ls pre.length (pre ++ sec).length), k'.level = k.level ∧
      k'.text = k.text ∧
      bodyText (cutLines ls pre.length (pre ++ sec).length) k' = bodyText ls k := by
  have hlt := lt_spanEnd hk
  have hmem : k ∈ headings pre ++ (headings post).map (Heading.shift (pre ++ sec).length) := by
    rw [← h.filter_headings, List.mem_filter]
    refine ⟨hk, ?_⟩
    rw [Bool.or_eq_true, decide_eq_true_eq, decide_eq_true_eq]
    omega
  obtain ⟨kept, gap, tail, hpre, hcut, hgap, htail, hends⟩ := cutLines_eq h
  rw [hcut]
  rcases List.mem_append.mp hmem with hfront | hback
  · have hline := headingsFrom_lt hfront
    have hend : spanEnd ls.length (headings ls) k ≤ pre.length := by
      refine hend.resolve_right fun hbehind => ?_
      rw [List.length_append] at hbehind
      omega
    rcases hends with rfl | ⟨rfl, rfl⟩
    · have hkept : k ∈ headings kept := by
        rwa [hpre, headings_gap hgap] at hfront
      refine ⟨k, ?_, rfl, rfl, ?_⟩
      · rw [List.append_nil, headings_gap htail]
        exact hkept
      · rw [h.bodyText_before hend, hpre, List.append_nil, bodyText, bodyText, spanEnd_eq_stopLine,
          spanEnd_eq_stopLine, textTo_gap htail hkept, textTo_gap hgap hkept]
    · rw [List.append_nil] at hpre ⊢
      rw [← hpre]
      refine ⟨k, ?_, rfl, rfl, h.bodyText_joined hfront hend⟩
      rw [headings_append h.fence]
      exact List.mem_append_left _ hfront
  · obtain ⟨j, hj, rfl⟩ := List.mem_map.mp hback
    have hpost : post ≠ [] := by
      rintro rfl
      cases hj
    obtain ⟨rfl, rfl⟩ := hends.resolve_left hpost
    rw [List.append_nil] at hpre ⊢
    rw [← hpre]
    refine ⟨j.shift pre.length, ?_, rfl, rfl, ?_⟩
    · rw [headings_append h.fence]
      exact List.mem_append_right _ (List.mem_map_of_mem hj)
    · rw [h.bodyText_behind hj, bodyText, bodyText, spanEnd_eq_stopLine, spanEnd_eq_stopLine,
        stopLine_behind h.fence, textTo_behind]

/-- Something is left where some heading is. -/
theorem cutLines_ne_nil (h : Parts ls pre sec post target)
    (hleft : ((headings ls).filter fun k =>
      pre.length ≤ k.line && k.line < (pre ++ sec).length).length ≠ (headings ls).length) :
    cutLines ls pre.length (pre ++ sec).length ≠ [] := by
  intro hnil
  have houtline := h.outline_cut
  rw [hnil, ← h.outline_outside] at houtline
  have hnone : (headings ls).filter (fun k => k.line < pre.length ||
      (pre ++ sec).length ≤ k.line) = [] := List.map_eq_nil_iff.mp houtline.symm
  refine hleft (congrArg List.length (List.filter_eq_self.mpr fun k hk => ?_))
  have hin := List.filter_eq_nil_iff.mp hnone k hk
  rw [Bool.or_eq_true, decide_eq_true_eq, decide_eq_true_eq] at hin
  rw [Bool.and_eq_true, decide_eq_true_eq, decide_eq_true_eq]
  omega

end Parts

variable {content arg out : Text} {range : Nat × Nat}

theorem sectionRange_ok (h : sectionRange content arg = .ok range) :
    ∃ target, addressed (lines content) arg = .ok target ∧
      range = (target.line, spanEnd (lines content).length (headings (lines content)) target) := by
  obtain ⟨target, haddressed, hrange⟩ := bind_ok_iff.mp h
  exact ⟨target, haddressed, (Except.ok.inj hrange).symm⟩

/-- An accepted removal cuts the lines of its section out, and leaves some heading. -/
theorem removeSection_ok (hrange : sectionRange content arg = .ok range)
    (h : removeSection content arg = .ok out) :
    ((headings (lines content)).filter fun h => range.1 ≤ h.line && h.line < range.2).length ≠
        (headings (lines content)).length ∧
      out = join (cutLines (lines content) range.1 range.2) := by
  rw [removeSection, hrange] at h
  obtain ⟨range', hrange', h⟩ := bind_ok_iff.mp h
  cases hrange'
  dsimp only at h
  split_ifs at h with hall
  exact ⟨hall, (Except.ok.inj h).symm⟩

/-- **A removal keeps every region and every other heading,** where no region has a line of the
section. -/
theorem removed_kept (hrange : sectionRange content arg = .ok range)
    (hclear : overlappingRegion content range.1 range.2 = none)
    (h : removeSection content arg = .ok out) : Kept content range.1 range.2 out := by
  obtain ⟨hleft, hout⟩ := removeSection_ok hrange h
  obtain ⟨target, haddressed, rfl⟩ := sectionRange_ok hrange
  obtain ⟨-, -, -, hmem⟩ := addressed_ok haddressed
  obtain ⟨pre, sec, post, hparts, -, -⟩ := exists_parts hmem
  rw [overlappingRegion, Option.map_eq_none_iff, List.find?_eq_none] at hclear
  dsimp only at hleft hout hclear ⊢
  rw [← hparts.start, ← hparts.stop] at hleft hout hclear ⊢
  have hlines : lines out = cutLines (lines content) pre.length (pre ++ sec).length := by
    rw [hout]
    refine lines_join (fun l hl => ?_) (hparts.cutLines_ne_nil hleft)
    exact newline_notMem_lines content l (mem_of_mem_cutLines hl)
  refine ⟨?_, ?_, ?_⟩
  · rw [regions_eq, regions_eq, hlines, hparts.regions_cut]
    intro s hs
    have hspan := hclear s hs
    rw [Bool.and_eq_true, decide_eq_true_eq, decide_eq_true_eq, List.length_append] at hspan
    omega
  · rw [hlines, hparts.outline_cut, hparts.outline_outside]
  · intro k hk hend
    rw [hlines]
    exact hparts.bodies_cut hk hend

end

/-! ### Both -/

/-- What adding and removing a section promise of a document, an address and a body. -/
structure Upheld (content arg body : Text) : Prop where
  added : ∀ out, addSection content arg body = .ok out → Added arg body out
  removed : ∀ range out, sectionRange content arg = .ok range →
    overlappingRegion content range.1 range.2 = none → removeSection content arg = .ok out →
    Kept content range.1 range.2 out

/-- **Adding a section and removing one keep their promises** exactly where an addition is refused
or the document takes the section. -/
theorem sections_upheld_iff (content arg body : Text) :
    Upheld content arg body ↔
      ((∃ refusal, addSection content arg body = .error refusal) ∨ Takes content arg body) := by
  constructor
  · intro h
    cases hadd : addSection content arg body with
    | error refusal => exact .inl ⟨refusal, rfl⟩
    | ok out => exact .inr ((h.added out hadd).takes hadd)
  · intro h
    refine ⟨fun out hadd => ?_, fun range out hrange hclear hremove => ?_⟩
    · rcases h with ⟨refusal, hrefused⟩ | htakes
      · rw [hrefused] at hadd
        cases hadd
      · exact htakes.added hadd
    · exact removed_kept hrange hclear hremove

/-- **A section added to an open fence** is added again. -/
theorem added_twice : ¬ Upheld "```\ncode".toList "Foo".toList "x".toList := by
  intro h
  have hadd : addSection "```\ncode".toList "Foo".toList "x".toList =
      .ok "```\ncode\n\n## Foo\n\nx\n".toList := by decide +kernel
  have hagain : addSection "```\ncode\n\n## Foo\n\nx\n".toList "Foo".toList "x".toList =
      .ok "```\ncode\n\n## Foo\n\nx\n\n## Foo\n\nx\n".toList := by decide +kernel
  have honce := (h.added _ hadd).once "Foo".toList "x".toList rfl
  rw [hagain] at honce
  cases honce

end Softfig.Doc
