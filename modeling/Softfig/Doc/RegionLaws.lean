import Softfig.Doc.RegionEdits

/-!
The laws of writing a managed region, and the documents on which they hold.

An upsert reads back what it wrote, the second of two upserts wins, and nothing else moves, as long
as the region can be written at all. It cannot be where the document leaves a fence open, where an
open marker of the tag is never closed, or where the tag is not as a marker gives it back; and the
line feeds at the end of a document are not all kept when a region is appended.

- `upsert_upsert`: the second of two upserts wins;
- `remove_upsert`: what is left of a document when a region is appended and removed;
- `upsert_lawful_iff`: the laws hold exactly on the documents that can take the region.
-/

namespace Softfig.Doc

open Softfig.Queue (isWhitespace trimStart trim)

/-! ### The laws -/

/-- A body without marker or fence lines and without blank edge lines. -/
structure IsBody (body : Text) : Prop where
  plain : ∀ l ∈ lines body, Plain l
  solid : Solid body

/-- The lines up to the open marker of a region, and from its close marker on. -/
def outside (content tag : Text) : Option (List Text × List Text) :=
  (locate (lines content) tag).map fun s =>
    ((lines content).take (s.openLine + 1), (lines content).drop s.closeLine)

/-- What stood outside the region still does: the same lines around it, or, where there was no
region, the whole document before it. -/
def Preserved (content tag result : Text) : Prop :=
  if hasRegion content tag then outside result tag = outside content tag else content <+: result

/-- The document, up to a line feed at its end. -/
def Intact (content result : Text) : Prop := result = content ∨ result = content ++ ['\n']

/-- What an upsert promises of a document, a tag, and two bodies. -/
structure Lawful (content tag body other : Text) : Prop where
  written : regionBody (upsert content tag body) tag = some body
  again : upsert (upsert content tag body) tag body = upsert content tag body
  last : upsert (upsert content tag body) tag other = upsert content tag other
  frame : ∀ t, t ≠ tag → regionBody (upsert content tag body) t = regionBody content t
  preserved : Preserved content tag (upsert content tag body)
  removed : hasRegion content tag = false →
    regionBody (remove (upsert content tag body) tag) tag = none ∧
      Intact content (remove (upsert content tag body) tag)

/-- The document has no blank line at its end. -/
def EndsInText (content : Text) : Prop := content ≠ ['\n'] ∧ ¬['\n', '\n'] <:+ content

/-- The documents that can take a region: there is one of the tag; or every fence is closed, no open
marker of the tag stands alone, and the document has no blank line at its end. -/
def CanTake (content tag : Text) : Prop :=
  IsTag tag ∧ (hasRegion content tag = true ∨
    (fenceAfter false (lines content) = false ∧ tag ∉ dangling (lines content) ∧
      EndsInText content))

/-! ### Tags -/

theorem isTag_of_openTag {l tag : Text} (hl : '\n' ∉ l) (h : openTag l = some tag) : IsTag tag := by
  unfold openTag at h
  cases hdrop : (trim l).dropPrefix? "<!-- softfig:".toList with
  | none =>
    rw [hdrop] at h
    cases h
  | some rest =>
    rw [hdrop] at h
    simp only at h
    cases hsuffix : rest.dropSuffix? "-->".toList with
    | none =>
      rw [hsuffix] at h
      cases h
    | some inside =>
      rw [hsuffix] at h
      simp only at h
      split at h
      · cases h
      · rename_i hnonempty
        obtain rfl := Option.some.inj h
        refine ⟨hnonempty, trim_trim _, fun hmem => hl ?_⟩
        obtain ⟨mark, hmark, -⟩ := List.dropPrefix?_eq_some_iff.mp hdrop
        obtain ⟨close, hclose, -⟩ := List.dropSuffix?_eq_some_iff.mp hsuffix
        refine mem_of_mem_trim ?_
        rw [hmark, hclose]
        exact List.mem_append_right _ (List.mem_append_left _ (mem_of_mem_trim hmem))

/-- The tag of a region is one that its marker gives back. -/
theorem isTag_of_mem_spansFrom {pairs : List (Text × Bool)} {i skip : Nat} {s : Span}
    (hlines : ∀ p ∈ pairs, '\n' ∉ p.1) (h : s ∈ spansFrom i skip pairs) : IsTag s.tag := by
  induction pairs generalizing i skip with
  | nil => cases h
  | cons p rest ih =>
    obtain ⟨l, fenced⟩ := p
    have hrest : ∀ p ∈ rest, '\n' ∉ p.1 := fun p hp => hlines p (List.mem_cons_of_mem _ hp)
    cases skip with
    | succ skip => exact ih hrest h
    | zero =>
      rw [spansFrom] at h
      cases hopen : openAt fenced l with
      | none =>
        simp only [hopen] at h
        exact ih hrest h
      | some tag =>
        simp only [hopen] at h
        split at h
        · exact ih hrest h
        · rcases List.mem_cons.mp h with rfl | h
          · cases fenced with
            | true => cases hopen
            | false => exact isTag_of_openTag (hlines _ List.mem_cons_self) hopen
          · exact ih hrest h

theorem isTag_of_regionBody {content tag body : Text} (h : regionBody content tag = some body) :
    IsTag tag := by
  obtain ⟨s, hs, -⟩ := Option.map_eq_some_iff.mp h
  obtain rfl : s.tag = tag := by simpa using List.find?_some hs
  refine isTag_of_mem_spansFrom (fun p hp => ?_) (List.mem_of_find?_eq_some hs)
  exact newline_notMem_lines content _ (List.of_mem_zip hp).1

/-! ### One upsert after another -/

section upserts

variable {content tag body other : Text}

theorem locate_of_hasRegion (h : hasRegion content tag = true) :
    ∃ s, locate (lines content) tag = some s := by
  refine Option.ne_none_iff_exists'.mp fun hnone => ?_
  obtain ⟨r, hr, hrtag⟩ := hasRegion_iff.mp h
  exact locate_eq_none.mp hnone r hr hrtag

/-- The region an upsert leaves, and what it leaves around it, whatever the body. -/
theorem around_upsert (htag : IsTag tag) (hbody : ∀ l ∈ lines body, Plain l)
    (h : Fits content tag) :
    ∃ before opener closer after,
      Around (lines (upsert content tag body)) tag before opener (bodyLines body) closer after ∧
      (∀ other, lines (upsert content tag other) =
        before ++ opener :: (bodyLines other ++ closer :: after)) ∧
      (hasRegion content tag = false → before = appendLead content ∧ after = [[]]) := by
  by_cases hregion : hasRegion content tag = true
  · obtain ⟨s, hs⟩ := locate_of_hasRegion hregion
    obtain ⟨before, opener, inner, closer, after, haround, -, -⟩ := locate_some hs
    refine ⟨before, opener, closer, after, ?_, lines_upsert_around haround, fun hnot => ?_⟩
    · rw [lines_upsert_around haround]
      exact haround.replace (plain_bodyLines hbody)
    · rw [hregion] at hnot
      cases hnot
  · have hnone : ∀ r ∈ regionsOf (lines content), r.1 ≠ tag := fun r hr hrtag =>
      hregion (hasRegion_iff.mpr ⟨r, hr, hrtag⟩)
    obtain ⟨hfence, hdangling⟩ := h.resolve_left fun ⟨r, hr, hrtag⟩ => hnone r hr hrtag
    exact ⟨appendLead content, openMarker tag, closeMarker tag, [[]],
      around_appended htag hbody hnone hfence hdangling, lines_upsert_absent htag hnone,
      fun _ => ⟨rfl, rfl⟩⟩

theorem eq_of_lines {a b : Text} (h : lines a = lines b) : a = b := by
  rw [← join_lines a, h, join_lines]

/-- **The second of two upserts wins.** -/
theorem upsert_upsert (htag : IsTag tag) (hbody : ∀ l ∈ lines body, Plain l)
    (h : Fits content tag) (other : Text) :
    upsert (upsert content tag body) tag other = upsert content tag other := by
  obtain ⟨before, opener, closer, after, haround, hlines, -⟩ := around_upsert htag hbody h
  refine eq_of_lines ?_
  rw [lines_upsert_around haround, hlines other]

theorem outside_of_around {before inner after : List Text} {opener closer : Text}
    (h : Around (lines content) tag before opener inner closer after) :
    outside content tag = some (before ++ [opener], closer :: after) := by
  have hsplit : lines content = (before ++ opener :: inner) ++ closer :: after := by
    rw [h.lines]
    simp
  have htake : (lines content).take (before.length + 1) = before ++ [opener] := by
    rw [h.lines, List.take_append]
    simp
  have hdrop : (lines content).drop (before.length + 1 + inner.length) = closer :: after := by
    rw [hsplit]
    exact List.drop_left' (by simp; omega)
  rw [outside, h.locate, Option.map_some, htake, hdrop]

/-- Where there is a region, an upsert leaves what is outside it. -/
theorem outside_upsert (hbody : ∀ l ∈ lines body, Plain l) (h : hasRegion content tag = true) :
    outside (upsert content tag body) tag = outside content tag := by
  obtain ⟨s, hs⟩ := locate_of_hasRegion h
  obtain ⟨before, opener, inner, closer, after, haround, -, -⟩ := locate_some hs
  have hnew := haround.replace (plain_bodyLines hbody)
  rw [← lines_upsert_around haround] at hnew
  rw [outside_of_around haround, outside_of_around hnew]

end upserts

/-! ### The end of a document -/

section ends

variable {content tag body : Text}

theorem exists_newlines (content : Text) :
    ∃ n, content = trimNewlines content ++ List.replicate n '\n' := by
  induction content using List.reverseRecOn with
  | nil => exact ⟨0, rfl⟩
  | append_singleton content c ih =>
    by_cases hc : c = '\n'
    · obtain ⟨n, hn⟩ := ih
      refine ⟨n + 1, ?_⟩
      rw [trimNewlines, List.rdropWhile_concat_pos _ _ _ (by simpa using hc), hc,
        List.replicate_succ', ← List.append_assoc]
      exact congrArg (· ++ ['\n']) hn
    · refine ⟨0, ?_⟩
      rw [trimNewlines, List.rdropWhile_concat_neg _ _ _ (by simpa using hc), List.replicate_zero,
        List.append_nil]

/-- A document without a blank line at its end is empty or has a text with at most its line feed
after it. -/
theorem EndsInText.cases (h : EndsInText content) : content = [] ∨
    (trimNewlines content ≠ [] ∧
      (content = trimNewlines content ∨ content = trimNewlines content ++ ['\n'])) := by
  obtain ⟨n, hn⟩ := exists_newlines content
  match n, hn with
  | 0, hn =>
    rw [List.replicate_zero, List.append_nil] at hn
    by_cases hempty : trimNewlines content = []
    · exact .inl (hn.trans hempty)
    · exact .inr ⟨hempty, .inl hn⟩
  | 1, hn =>
    refine .inr ⟨fun hempty => h.1 ?_, .inr hn⟩
    rw [hn, hempty]
    rfl
  | n + 2, hn =>
    refine absurd ⟨trimNewlines content ++ List.replicate n '\n', ?_⟩ h.2
    rw [List.append_assoc]
    exact (hn.trans (congrArg _ (List.replicate_add n 2 '\n'))).symm

/-- What is left of a document when a region is appended and removed. -/
theorem remove_upsert (htag : IsTag tag) (hbody : ∀ l ∈ lines body, Plain l)
    (hnone : hasRegion content tag = false) (hfence : fenceAfter false (lines content) = false)
    (hdangling : tag ∉ dangling (lines content)) :
    remove (upsert content tag body) tag =
      if trimNewlines content = [] then [] else trimNewlines content ++ ['\n'] := by
  have hregions : ∀ r ∈ regionsOf (lines content), r.1 ≠ tag := fun r hr hrtag => by
    rw [hasRegion_iff.mpr ⟨r, hr, hrtag⟩] at hnone
    cases hnone
  rw [remove_around (around_appended htag hbody hregions hfence hdangling), appendLead]
  split
  · rfl
  · have hlast : (lines (trimNewlines content) ++ [[]]).getLast? = some [] := List.getLast?_concat ..
    rw [hlast, Option.any_some, List.all_nil, if_pos rfl, List.dropLast_concat]
    have hlines : lines (trimNewlines content ++ ['\n']) = lines (trimNewlines content) ++ [[]] :=
      lines_append _ []
    exact (congrArg join hlines.symm).trans (join_lines _)

theorem intact_iff (content : Text) :
    Intact content (if trimNewlines content = [] then [] else trimNewlines content ++ ['\n']) ↔
      EndsInText content := by
  constructor
  · intro h
    have hlong : content.length ≤ (if trimNewlines content = [] then []
        else trimNewlines content ++ ['\n']).length := by
      rcases h with h | h
      · rw [h]
      · rw [h, List.length_append]
        exact Nat.le_add_right _ _
    constructor
    · rintro rfl
      exact absurd hlong (by decide)
    · rintro ⟨text, rfl⟩
      have htrim : trimNewlines (text ++ ['\n', '\n']) = trimNewlines text := by
        have htwice : text ++ ['\n', '\n'] = text ++ ['\n'] ++ ['\n'] := by simp
        rw [htwice, trimNewlines, List.rdropWhile_concat_pos _ _ _ rfl,
          List.rdropWhile_concat_pos _ _ _ rfl]
        rfl
      have hshort : (trimNewlines text).length ≤ text.length :=
        (List.rdropWhile_prefix _ _).length_le
      rw [htrim] at hlong
      split at hlong
      · simp at hlong
      · simp only [List.length_append, List.length_cons, List.length_nil] at hlong
        omega
  · intro h
    rcases h.cases with rfl | ⟨hcore, h | h⟩
    · exact .inl rfl
    · rw [if_neg hcore]
      exact .inr (congrArg (· ++ ['\n']) h.symm)
    · rw [if_neg hcore]
      exact .inl h.symm

/-- A region appended to a document without a blank line at its end stands behind it. -/
theorem prefix_upsert (hnone : hasRegion content tag = false) (h : EndsInText content) :
    content <+: upsert content tag body := by
  have hlocate : locate (lines content) tag = none := by
    rw [hasRegion, List.any_eq_false] at hnone
    exact List.find?_eq_none.mpr hnone
  rw [upsert, hlocate]
  simp only [List.append_assoc]
  rcases h.cases with rfl | ⟨hcore, h | h⟩
  · exact List.nil_prefix
  · rw [if_neg hcore, List.append_assoc]
    exact ⟨_, congrArg (· ++ _) h⟩
  · have hbreak : "\n\n".toList = ['\n'] ++ ['\n'] := by decide
    rw [if_neg hcore, hbreak, List.append_assoc, List.append_assoc]
    have hcontent : content <+: trimNewlines content ++ ['\n'] := ⟨[], (List.append_nil _).trans h⟩
    exact hcontent.trans ((List.prefix_append_right_inj _).mpr (List.prefix_append _ _))

end ends

/-! ### Documents that cannot take a region -/

section refusals

variable {content tag body : Text}

theorem marked_fenced {ls : List Text} (h : ∀ l ∈ ls, isFence l = false) :
    ∀ p ∈ marked true ls, p.2 = true := by
  induction ls with
  | nil => exact fun p hp => absurd hp List.not_mem_nil
  | cons l ls ih =>
    rw [marked_cons, h l List.mem_cons_self]
    intro p hp
    rcases List.mem_cons.mp hp with rfl | hp
    · rfl
    · exact ih (fun l hl => h l (List.mem_cons_of_mem _ hl)) p hp

/-- Lines inside an open fence are no markers. -/
theorem regionsOf_fenced {ls ls' : List Text} (hfence : fenceAfter false ls = true)
    (h : ∀ l ∈ ls', isFence l = false) : regionsOf (ls ++ ls') = regionsOf ls := by
  have hall := marked_fenced h
  have hsilent : ∀ p ∈ marked true ls', openAt p.2 p.1 = none := fun p hp => by
    rw [hall p hp]
    rfl
  have hcloses : ∀ tag ∈ danglingFrom 0 (marked false ls), ∀ p ∈ marked true ls',
      closesAt tag p = false := fun tag _ p hp => by
    rw [closesAt, hall p hp]
    rfl
  have hscan := (scan_append (Nat.zero_le _) hcloses).1
  rw [regionsOf, marked_append, hfence, hscan, (scan_silent hsilent).1, List.append_nil]
  rfl

/-- In an open fence the region written is not read. -/
theorem regionBody_upsert_fenced (htag : IsTag tag) (hbody : ∀ l ∈ lines body, Plain l)
    (hnone : ∀ r ∈ regionsOf (lines content), r.1 ≠ tag)
    (hfence : fenceAfter false (lines content) = true) :
    regionBody (upsert content tag body) tag = none := by
  obtain ⟨gap, hgap, hlines⟩ := lines_trimNewlines content
  have hplain : ∀ l ∈ gap, Plain l := fun l hl => hgap l hl ▸ .nil
  have hcore : fenceAfter false (lines (trimNewlines content)) = true := by
    rw [hlines, fenceAfter_append] at hfence
    rwa [fenceAfter_plain hplain] at hfence
  have hnonempty : trimNewlines content ≠ [] := by
    intro hempty
    rw [hempty] at hcore
    exact absurd hcore (by decide)
  have hblock : ∀ l ∈ [] :: openMarker tag :: (bodyLines body ++ closeMarker tag :: [[]]),
      isFence l = false := by
    intro l hl
    simp only [List.mem_cons, List.mem_append, List.not_mem_nil, or_false] at hl
    rcases hl with rfl | rfl | hl | rfl | rfl
    · rfl
    · exact isFence_of_openTag (openTag_openMarker htag)
    · exact (plain_bodyLines hbody l hl).fence
    · exact isFence_of_trim (trim_closeMarker tag)
    · rfl
  have hsame : regionsOf (lines (upsert content tag body)) = regionsOf (lines content) := by
    rw [lines_upsert_absent htag hnone, appendLead, if_neg hnonempty, List.append_assoc,
      List.singleton_append, regionsOf_fenced hcore hblock, hlines,
      regionsOf_fenced hcore fun l hl => (hplain l hl).fence]
  rw [regionBody_eq, hsame, Option.map_eq_none_iff, List.find?_eq_none]
  simpa using hnone

/-- An open marker that stands alone takes what follows, up to the next line that closes its tag. -/
theorem swallow {pairs rest : List (Text × Bool)} {skip k : Nat} (hskip : skip ≤ pairs.length)
    (hnone : ∀ r ∈ regionsFrom skip pairs, r.1 ≠ tag) (h : tag ∈ danglingFrom skip pairs)
    (hothers : ∀ t ∈ danglingFrom skip pairs, t ≠ tag → ∀ p ∈ rest, closesAt t p = false)
    (hfound : rest.findIdx? (closesAt tag) = some k) :
    ∃ inner, (∀ l ∈ inner, l ∈ pairs.map Prod.fst) ∧
      (regionsFrom skip (pairs ++ rest)).find? (fun r => r.1 = tag) =
        some (tag, inner ++ (rest.take k).map Prod.fst) := by
  induction pairs generalizing skip with
  | nil => cases skip <;> cases h
  | cons p pairs ih =>
    have hstep {skip : Nat} (hskip : skip ≤ pairs.length)
        (hnone : ∀ r ∈ regionsFrom skip pairs, r.1 ≠ tag) (h : tag ∈ danglingFrom skip pairs)
        (hothers : ∀ t ∈ danglingFrom skip pairs, t ≠ tag → ∀ p ∈ rest, closesAt t p = false) :
        ∃ inner, (∀ l ∈ inner, l ∈ (p :: pairs).map Prod.fst) ∧
          (regionsFrom skip (pairs ++ rest)).find? (fun r => r.1 = tag) =
            some (tag, inner ++ (rest.take k).map Prod.fst) := by
      obtain ⟨inner, hinner, hfind⟩ := ih hskip hnone h hothers
      exact ⟨inner, fun l hl => List.mem_cons_of_mem _ (hinner l hl), hfind⟩
    obtain ⟨l, fenced⟩ := p
    cases skip with
    | succ skip => exact hstep (Nat.le_of_succ_le_succ hskip) hnone h hothers
    | zero =>
      simp only [List.cons_append, regionsFrom, danglingFrom] at hnone h hothers ⊢
      cases hopen : openAt fenced l with
      | none =>
        simp only [hopen] at hnone h hothers
        exact hstep (Nat.zero_le _) hnone h hothers
      | some t =>
        simp only [hopen] at hnone h hothers
        simp only [List.findIdx?_append]
        cases hclose : pairs.findIdx? (closesAt t) with
        | some j =>
          simp only [hclose, List.forall_mem_cons] at hnone h hothers
          have hj := (List.findIdx?_eq_some_iff_getElem.mp hclose).1
          simp only [Option.some_or]
          rw [List.find?_cons_of_neg (by simpa using hnone.1)]
          exact hstep hj hnone.2 h hothers
        | none =>
          simp only [hclose, List.mem_cons] at hnone h hothers
          by_cases heq : t = tag
          · subst heq
            refine ⟨pairs.map Prod.fst, fun l hl => List.mem_cons_of_mem _ hl, ?_⟩
            simp only [Option.none_or, hfound, Option.map_some]
            rw [List.find?_cons_of_pos (by simp), Nat.add_comm, List.take_length_add_append,
              List.map_append]
          · simp only [Option.none_or, findIdx?_closes (hothers t (.inl rfl) heq), Option.map_none]
            exact hstep (Nat.zero_le _) hnone (h.resolve_left (Ne.symm heq)) fun t ht =>
              hothers t (.inr ht)

theorem mem_trimBlank {ls : List Text} {l : Text} (h : l ∈ ls) (hl : l.all isWhitespace = false) :
    l ∈ trimBlank ls := by
  have hkept {ls : List Text} (h : l ∈ ls) : l ∈ ls.dropWhile fun l => l.all isWhitespace := by
    rw [← @List.takeWhile_append_dropWhile _ (fun l => l.all isWhitespace) ls] at h
    rcases List.mem_append.mp h with h | h
    · rw [List.mem_takeWhile_imp h] at hl
      cases hl
    · exact h
  exact List.mem_reverse.mpr (hkept (List.mem_reverse.mpr (hkept h)))

theorem mem_of_mem_trimBlank {ls : List Text} {l : Text} (h : l ∈ trimBlank ls) : l ∈ ls :=
  (List.dropWhile_sublist _).mem (List.mem_reverse.mp ((List.dropWhile_sublist _).mem
    (List.mem_reverse.mp h)))

/-- Behind an open marker of the tag that stands alone the region written is not the one read. -/
theorem regionBody_upsert_dangling (htag : IsTag tag) (hbody : ∀ l ∈ lines body, Plain l)
    (hnone : ∀ r ∈ regionsOf (lines content), r.1 ≠ tag)
    (hfence : fenceAfter false (lines content) = false) (hdangling : tag ∈ dangling (lines content)) :
    regionBody (upsert content tag body) tag ≠ some body := by
  have hlead := scansAs_appendLead hfence
  have hblock : Block (openMarker tag) (bodyLines body) (closeMarker tag) tag :=
    .of_plain (openTag_openMarker htag) (trim_closeMarker tag) (plain_bodyLines hbody)
  have hend : ∀ l ∈ [([] : Text)], Plain l := by simpa using Plain.nil
  have hothers : ∀ t ∈ dangling (appendLead content), t ≠ tag →
      ∀ p ∈ marked false (openMarker tag :: (bodyLines body ++ closeMarker tag :: [[]])),
        closesAt t p = false := by
    intro t _ hne p hp
    refine Bool.eq_false_iff.mpr fun hcloses => ?_
    rcases hblock.closes_iff.mp ⟨p, hp, hcloses⟩ with hcloses | rfl | hcloses
    · exact not_closes_plain (plain_bodyLines hbody) t hcloses
    · exact hne rfl
    · exact not_closes_plain hend t hcloses
  have hmarked := @marked_cons false (openMarker tag) (bodyLines body ++ closeMarker tag :: [[]])
  rw [isFence_of_openTag (openTag_openMarker htag)] at hmarked
  have hfound : (marked false (openMarker tag :: (bodyLines body ++ closeMarker tag :: [[]]))).findIdx?
      (closesAt tag) = some ((bodyLines body).length + 1) := by
    have hopener : closesAt tag (openMarker tag, false) = false :=
      decide_eq_false (closes_ne_of_openTag (openTag_openMarker htag) tag)
    have hfound := @Block.found _ [[]] _ _ _ hblock
    rw [hmarked, List.findIdx?_cons, Bool.or_self, hopener]
    simpa using hfound
  have hpairs := hnone
  rw [← hlead.regions] at hpairs
  rw [← hlead.dangling] at hdangling
  obtain ⟨inner, hinner, hfind⟩ := swallow (Nat.zero_le _) hpairs hdangling hothers hfound
  have hlines := lines_upsert_absent htag hnone body
  rw [← marked_closed hlead.fence, ← hlines] at hfind
  rw [regionBody_eq, regionsOf, hfind, Option.map_some, ne_eq, Option.some.injEq]
  intro hread
  -- The open marker just written would be a line of the body.
  have hopener : openMarker tag ∈ inner ++ ((marked false (openMarker tag ::
      (bodyLines body ++ closeMarker tag :: [[]]))).take ((bodyLines body).length + 1)).map
        Prod.fst := by
    rw [hmarked, List.take_succ_cons]
    exact List.mem_append_right _ List.mem_cons_self
  have hheld : ∀ l ∈ inner ++ ((marked false (openMarker tag ::
      (bodyLines body ++ closeMarker tag :: [[]]))).take ((bodyLines body).length + 1)).map
        Prod.fst, '\n' ∉ l := by
    intro l hl
    refine newline_notMem_lines (upsert content tag body) l ?_
    rw [hlines]
    rcases List.mem_append.mp hl with hl | hl
    · have hl' := hinner l hl
      rw [marked_map_fst] at hl'
      exact List.mem_append_left _ hl'
    · have hl' := (List.take_sublist _ _).map Prod.fst |>.subset hl
      rw [marked_map_fst] at hl'
      exact List.mem_append_right _ hl'
  have hsolid : (openMarker tag).all isWhitespace = false := by
    refine Bool.eq_false_iff.mpr fun hblank => ?_
    exact absurd (List.all_eq_true.mp hblank '<' List.mem_cons_self) (by decide)
  have hkept := mem_trimBlank hopener hsolid
  have hbodyLines := lines_join (fun l hl => hheld l (mem_of_mem_trimBlank hl))
    (List.ne_nil_of_mem hkept)
  rw [hread] at hbodyLines
  rw [← hbodyLines] at hkept
  have hopens := (hbody _ hkept).opens
  rw [openTag_openMarker htag] at hopens
  cases hopens

end refusals

/-! ### When the laws hold -/

section laws

variable {content tag body other : Text}

theorem CanTake.fits (h : CanTake content tag) : Fits content tag := by
  rcases h.2 with hregion | ⟨hfence, hdangling, -⟩
  · exact .inl (hasRegion_iff.mp hregion)
  · exact .inr ⟨hfence, hdangling⟩

/-- A region appended and removed is gone. -/
theorem regionBody_remove_upsert (htag : IsTag tag) (hbody : ∀ l ∈ lines body, Plain l)
    (hnone : hasRegion content tag = false) (h : Fits content tag) :
    regionBody (remove (upsert content tag body) tag) tag = none := by
  have hregions : ∀ r ∈ regionsOf (lines content), r.1 ≠ tag := fun r hr hrtag => by
    rw [hasRegion_iff.mpr ⟨r, hr, hrtag⟩] at hnone
    cases hnone
  have hset := @setRegion_append tag (bodyLines body) _ [] hregions
  rw [List.append_nil] at hset
  have herase : (regionsOf (lines content) ++ setRegion tag (bodyLines body) []).eraseP
      (fun r => r.1 = tag) = regionsOf (lines content) := by
    rw [List.eraseP_append_right _ (by simpa using hregions), setRegion,
      List.eraseP_cons_of_pos (by simp), List.append_nil]
  rw [regionBody_eq, (scans_remove _ tag).regions, (scans_upsert htag hbody h).regions, hset, herase,
    Option.map_eq_none_iff, List.find?_eq_none]
  simpa using hregions

theorem CanTake.lawful (h : CanTake content tag) (hbody : IsBody body) :
    Lawful content tag body other where
  written := regionBody_upsert h.1 hbody.plain hbody.solid h.fits
  again := upsert_upsert h.1 hbody.plain h.fits body
  last := upsert_upsert h.1 hbody.plain h.fits other
  frame t hne := regionBody_upsert_ne hne h.1 hbody.plain h.fits
  preserved := by
    unfold Preserved
    split
    · rename_i hregion
      exact outside_upsert hbody.plain hregion
    · rename_i hregion
      obtain ⟨-, -, hends⟩ := h.2.resolve_left hregion
      exact prefix_upsert (Bool.not_eq_true _ |>.mp hregion) hends
  removed hnone := by
    obtain ⟨hfence, hdangling, hends⟩ := h.2.resolve_left (by rw [hnone]; exact Bool.false_ne_true)
    have hremoved := remove_upsert h.1 hbody.plain hnone hfence hdangling
    constructor
    · exact regionBody_remove_upsert h.1 hbody.plain hnone h.fits
    · rw [hremoved]
      exact (intact_iff content).mpr hends

/-- **The laws of a managed upsert** hold exactly on the documents that can take the region, whatever
the bodies. -/
theorem upsert_lawful_iff (content tag body other : Text) (hbody : IsBody body) :
    Lawful content tag body other ↔ CanTake content tag := by
  refine ⟨fun h => ?_, fun h => h.lawful hbody⟩
  have htag := isTag_of_regionBody h.written
  refine ⟨htag, ?_⟩
  by_cases hregion : hasRegion content tag = true
  · exact .inl hregion
  · have hnone : ∀ r ∈ regionsOf (lines content), r.1 ≠ tag := fun r hr hrtag =>
      hregion (hasRegion_iff.mpr ⟨r, hr, hrtag⟩)
    have habsent : hasRegion content tag = false := Bool.not_eq_true _ |>.mp hregion
    have hfence : fenceAfter false (lines content) = false := by
      refine Bool.not_eq_true _ |>.mp fun hfence => ?_
      have hread := regionBody_upsert_fenced htag hbody.plain hnone hfence
      rw [h.written] at hread
      cases hread
    have hdangling : tag ∉ dangling (lines content) := fun hdangling =>
      regionBody_upsert_dangling htag hbody.plain hnone hfence hdangling h.written
    have hintact := (h.removed habsent).2
    rw [remove_upsert htag hbody.plain habsent hfence hdangling, intact_iff] at hintact
    exact .inr ⟨hfence, hdangling, hintact⟩

/-- A body of one line is one, if the line is not blank and begins as a text. -/
theorem IsBody.of_line {l : Text} (hline : '\n' ∉ l) (hstart : plainStart l = true)
    (hsolid : l.all isWhitespace = false) : IsBody l := by
  have hlines := lines_line hline
  refine ⟨fun k hk => ?_, fun k hk => ?_, fun k hk => ?_⟩
  · rw [hlines, List.mem_singleton] at hk
    rw [hk]
    exact .of_start hstart
  · rw [hlines] at hk
    rw [← Option.some.inj hk]
    exact hsolid
  · rw [hlines] at hk
    rw [← Option.some.inj hk]
    exact hsolid

/-- A document with an open fence: the region goes into the fence, and is not read. -/
theorem not_lawful_open_fence : ¬∀ content tag body other : Text,
    IsBody body → IsBody other → Lawful content tag body other := by
  intro h
  have hbody : IsBody ['x'] := .of_line (by decide) rfl rfl
  have hwritten := (h "```text\n".toList "backlinks".toList ['x'] ['x'] hbody hbody).written
  exact absurd hwritten (by decide +kernel)

theorem lawful_plain_document :
    Lawful "# Doc\n\nbody\n".toList "index notes".toList ['A'] ['B'] := by
  have hbody : IsBody ['A'] := .of_line (by decide) rfl rfl
  refine (upsert_lawful_iff _ _ _ _ hbody).mpr ⟨⟨?_, ?_, ?_⟩, .inr ⟨?_, ?_, ?_, ?_⟩⟩
  all_goals decide +kernel

end laws

end Softfig.Doc
