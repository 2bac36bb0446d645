import Softfig.Doc.MemberGuard
import Softfig.LayerB.Scan

/-!
The regions the member guard sees and the regions the encryptor seals.

`scanRegionBounds` reads the tags the way `parse` does and refuses nothing: an
unknown id, an id used twice and a tag inside a body are passed, and a tag that
is not closed is reported with an empty body.

- `scanRegionBounds_eq_spans`: where a file parses, the reported bodies are the
  bodies of the spans;
- `scanRegionBounds_apart`: in every file, a reported body overlaps no other
  one, no reported opening tag and no closing tag;
- `guard_regions_eq`: the member guard compares the bytes in these ranges;
- `regions_agree`: the two together.
-/

namespace Softfig.LayerB.Bounds

open Softfig.Lib
open Softfig.Store (Bytes)

/-- A reported region: its opening tag and its body. -/
structure RegionBounds where
  tag : ByteRange
  body : ByteRange
  deriving DecidableEq

/-- The regions from byte `pos` on, of which the first `skip` belong to the region read last. A
tag that is not closed has an empty body and ends the scan. -/
def boundsFrom (pos : Nat) : Nat → Bytes → List Bool → List RegionBounds
  | _, [], _ => []
  | skip + 1, _ :: rest, allow => boundsFrom (pos + 1) skip rest allow.tail
  | 0, b :: rest, allow =>
    match openTagAt? (b :: rest) with
    | none => boundsFrom (pos + 1) 0 rest allow.tail
    | some tag =>
      if allow.headD false = false then boundsFrom (pos + 1) 0 rest allow.tail
      else
        let bodyStart := pos + tag.length
        match nextCloseTag ((b :: rest).drop tag.length) with
        | none => [⟨⟨pos, bodyStart⟩, ⟨bodyStart, bodyStart⟩⟩]
        | some close =>
          if (allow.drop tag.length).getD close false then
            ⟨⟨pos, bodyStart⟩, ⟨bodyStart, bodyStart + close⟩⟩ ::
              boundsFrom (pos + 1) (tag.length + close + closeMark.length - 1) rest allow.tail
          else [⟨⟨pos, bodyStart⟩, ⟨bodyStart, bodyStart⟩⟩]

/-- The opening tags that count and the bodies after them. -/
def scanRegionBounds (parser : RegionParser) (content : Bytes) : List RegionBounds :=
  if isUtf8 content then boundsFrom 0 0 content (mask parser.start content) else []

/-! ### What the scan is for -/

/-- Two ranges have a byte in common. -/
def Overlap (r s : ByteRange) : Prop :=
  ∃ k, (r.start ≤ k ∧ k < r.stop) ∧ s.start ≤ k ∧ k < s.stop

/-- A reported region that is a span: the tag with its id, and its body. -/
structure Reports (content : Bytes) (span : RegionSpan) (found : RegionBounds) : Prop where
  tag : found.tag.slice content = openTag span.id
  adjoined : found.tag.stop = found.body.start
  body : found.body = span.body

/-- No reported body overlaps another one, a reported opening tag or a closing tag. -/
structure Apart (content : Bytes) (found : List RegionBounds) : Prop where
  bodies : found.Pairwise fun r s => ¬ Overlap r.body s.body
  tags : ∀ r ∈ found, ∀ s ∈ found, ¬ Overlap r.body s.tag
  closings : ∀ r ∈ found, ∀ at', closes (content.drop at') = true →
    ¬ Overlap r.body ⟨at', at' + closeMark.length⟩

/-! ### Against the spans -/

section spans

variable {cipher : RegionCipher} {path : String}

theorem closeRegion_ok {seen : List Bytes} {tag : OpenTag} {after : Bytes} {allow : List Bool}
    {close : Nat} (h : closeRegion seen tag after allow = .ok close) :
    nextCloseTag after = some close ∧ allow.getD close false = true := by
  obtain ⟨-, -, hallow, body, rest, rfl, rfl, habsent, -⟩ := closeRegion_eq_ok.mp h
  exact ⟨nextCloseTag_of_absent habsent, hallow⟩

theorem slice_openTag {read content : Bytes} {tag : OpenTag}
    (h : openTagAt? content = some tag) :
    (ByteRange.mk read.length (read.length + tag.length)).slice (read ++ content) =
      openTag tag.id := by
  obtain ⟨-, -, hlen, rest, rfl⟩ := openTagAt?_eq_some.mp h
  show ((read ++ (openTag tag.id ++ rest)).take (read.length + tag.length)).drop read.length = _
  rw [hlen, List.take_length_add_append, List.drop_left, List.take_left]

theorem boundsFrom_spans {read content : Bytes} {seen : List Bytes} {skip : Nat}
    {allow : List Bool} {spans : List RegionSpan}
    (h : scanRegions cipher path seen read.length skip content allow = .ok spans) :
    List.Forall₂ (Reports (read ++ content)) spans
      (boundsFrom read.length skip content allow) := by
  induction content generalizing read seen skip allow spans with
  | nil =>
    cases skip <;> cases h <;> exact .nil
  | cons b rest ih =>
    have hpos : read.length + 1 = (read ++ [b]).length := by simp
    have hread : read ++ b :: rest = (read ++ [b]) ++ rest := by simp
    cases skip with
    | succ skip =>
      rw [scanRegions, hpos] at h
      rw [boundsFrom, hpos, hread]
      exact ih h
    | zero =>
      cases htag : openTagAt? (b :: rest) with
      | none =>
        simp only [scanRegions, htag] at h
        simp only [boundsFrom, htag]
        rw [hpos] at h ⊢
        rw [hread]
        exact ih h
      | some tag =>
        cases hallow : allow.headD false with
        | false =>
          rw [scanRegions_pass (.inr hallow), hpos] at h
          simp only [boundsFrom, htag, hallow, if_true]
          rw [hpos, hread]
          exact ih h
        | true =>
          rw [scanRegions_open cipher path seen _ htag hallow] at h
          simp only [bind_ok_iff] at h
          obtain ⟨close, hclose, more, hmore, heq⟩ := h
          cases heq
          obtain ⟨hnext, hmasked⟩ := closeRegion_ok hclose
          simp only [boundsFrom, htag, hallow, hnext, hmasked, Bool.true_eq_false, if_false,
            if_true]
          constructor
          · constructor
            · exact slice_openTag htag
            · rfl
            · rfl
          · rw [hpos] at hmore ⊢
            rw [hread]
            exact ih hmore

/-- **Where a file parses, the reported regions are its spans**, in the same order. -/
theorem scanRegionBounds_eq_spans {parser : RegionParser} {content : Bytes}
    {spans : List RegionSpan} (h : parse cipher path parser content = .ok spans) :
    List.Forall₂ (Reports content) spans (scanRegionBounds parser content) := by
  rw [parse] at h
  rw [scanRegionBounds]
  split at h
  · rename_i hutf8
    rw [if_pos hutf8]
    exact @boundsFrom_spans cipher path [] content [] 0 _ _ h
  · rename_i hutf8
    rw [if_neg hutf8]
    cases h
    exact .nil

end spans

/-! ### Apart from each other and from the closing tags -/

theorem closes_drop {after : Bytes} {close j : Nat} (h : nextCloseTag after = some close)
    (hj : j < close) : closes (after.drop j) = false := by
  induction after generalizing close j with
  | nil => cases h
  | cons b after ih =>
    rw [nextCloseTag] at h
    split at h
    · cases h
      exact absurd hj (Nat.not_lt_zero j)
    · rename_i hclose
      obtain ⟨close, hclosed, rfl⟩ := Option.map_eq_some_iff.mp h
      cases j with
      | zero => exact Bool.eq_false_iff.mpr hclose
      | succ j => exact ih hclosed (Nat.lt_of_succ_lt_succ hj)

theorem getElem?_of_closes {content : Bytes} (h : closes content = true) {j : Nat}
    (hj : j < closeMark.length) : content[j]? = closeMark[j]? := by
  obtain ⟨rest, rfl⟩ := List.isPrefixOf_iff_prefix.mp h
  exact List.getElem?_append_left hj

/-- An opening tag ends in an angle bracket. -/
theorem getElem?_of_openTagAt? {content : Bytes} {tag : OpenTag}
    (h : openTagAt? content = some tag) :
    0 < tag.length ∧ content[tag.length - 1]? = some greater := by
  obtain ⟨-, -, hlen, rest, rfl⟩ := openTagAt?_eq_some.mp h
  rw [hlen, length_openTag]
  refine ⟨by omega, ?_⟩
  rw [List.getElem?_append_left (by rw [length_openTag]; omega), openTag,
    List.getElem?_append_right (by simp)]
  simp

theorem closeMark_ne_greater {j : Nat} (hj : j + 1 < closeMark.length) :
    closeMark[j]? ≠ some greater := by
  have hall : ∀ j < 7, closeMark[j]? ≠ some greater := by decide
  exact hall j (Nat.lt_of_succ_lt_succ hj)

/-- A body ends before the first closing tag after its opening tag, and no closing tag begins in
the opening tag and ends behind it. -/
theorem body_apart {read content : Bytes} {tag : OpenTag} (htag : openTagAt? content = some tag)
    {close : Nat} (hclose : nextCloseTag (content.drop tag.length) = some close) {p : Nat}
    (hp : closes ((read ++ content).drop p) = true) :
    ¬ Overlap ⟨read.length + tag.length, read.length + tag.length + close⟩
      ⟨p, p + closeMark.length⟩ := by
  rintro ⟨k, ⟨hstart, hstop⟩, hmark, hend⟩
  dsimp only at hstart hstop hmark hend
  by_cases hbefore : p < read.length + tag.length
  · obtain ⟨hpos, hlast⟩ := getElem?_of_openTagAt? htag
    obtain ⟨j, hj⟩ : ∃ j, read.length + (tag.length - 1) = p + j :=
      ⟨read.length + (tag.length - 1) - p, by omega⟩
    have hmarked := getElem?_of_closes hp (j := j) (by omega)
    rw [List.getElem?_drop, ← hj, List.getElem?_append_right (Nat.le_add_right _ _),
      Nat.add_sub_cancel_left, hlast] at hmarked
    exact closeMark_ne_greater (by omega) hmarked.symm
  · obtain ⟨j, rfl⟩ : ∃ j, p = read.length + (tag.length + j) :=
      ⟨p - read.length - tag.length, by omega⟩
    have habsent := closes_drop hclose (j := j) (by omega)
    rw [List.drop_length_add_append, ← List.drop_drop, habsent] at hp
    cases hp

theorem not_overlap_empty (n : Nat) (s : ByteRange) : ¬ Overlap ⟨n, n⟩ s := by
  rintro ⟨k, ⟨hstart, hstop⟩, -⟩
  exact absurd hstop (Nat.not_lt.mpr hstart)

theorem boundsFrom_closings {read content : Bytes} {skip : Nat} {allow : List Bool} :
    ∀ r ∈ boundsFrom read.length skip content allow, ∀ p,
      closes ((read ++ content).drop p) = true → ¬ Overlap r.body ⟨p, p + closeMark.length⟩ := by
  induction content generalizing read skip allow with
  | nil =>
    intro r hr
    cases skip <;> cases hr
  | cons b rest ih =>
    have hpos : read.length + 1 = (read ++ [b]).length := by simp
    have hread : read ++ b :: rest = (read ++ [b]) ++ rest := by simp
    have hrest : ∀ {skip : Nat}, ∀ r ∈ boundsFrom (read.length + 1) skip rest allow.tail, ∀ p,
        closes ((read ++ b :: rest).drop p) = true →
          ¬ Overlap r.body ⟨p, p + closeMark.length⟩ := by
      intro skip
      rw [hpos, hread]
      exact ih
    intro r hr p hp
    cases skip with
    | succ skip =>
      rw [boundsFrom] at hr
      exact hrest r hr p hp
    | zero =>
      rw [boundsFrom] at hr
      split at hr
      · exact hrest r hr p hp
      · rename_i tag htag
        split at hr
        · exact hrest r hr p hp
        · dsimp only at hr
          split at hr
          · rw [List.mem_singleton] at hr
            rw [hr]
            exact not_overlap_empty _ _
          · rename_i close hclose
            split at hr
            · rcases List.mem_cons.mp hr with rfl | hr
              · exact body_apart htag hclose hp
              · exact hrest r hr p hp
            · rw [List.mem_singleton] at hr
              rw [hr]
              exact not_overlap_empty _ _

/-- A tag, and its body right after it. -/
structure Formed (r : RegionBounds) : Prop where
  tag : r.tag.start ≤ r.tag.stop
  adjoined : r.tag.stop = r.body.start
  body : r.body.start ≤ r.body.stop

/-- Formed regions from a byte on, each after the one before. -/
structure InOrder (low : Nat) (found : List RegionBounds) : Prop where
  formed : ∀ r ∈ found, Formed r
  low : ∀ r ∈ found, low ≤ r.tag.start
  later : found.Pairwise fun r s => r.body.stop ≤ s.tag.start

theorem InOrder.nil (low : Nat) : InOrder low [] :=
  ⟨by simp, by simp, .nil⟩

theorem InOrder.mono {low low' : Nat} {found : List RegionBounds} (h : InOrder low found)
    (hle : low' ≤ low) : InOrder low' found :=
  ⟨h.formed, fun r hr => hle.trans (h.low r hr), h.later⟩

theorem InOrder.cons {low : Nat} {r : RegionBounds} {found : List RegionBounds} (hr : Formed r)
    (hlow : low ≤ r.tag.start) (h : InOrder r.body.stop found) : InOrder low (r :: found) := by
  refine ⟨?_, ?_, List.pairwise_cons.mpr ⟨h.low, h.later⟩⟩
  · intro s hs
    rcases List.mem_cons.mp hs with rfl | hs
    · exact hr
    · exact h.formed s hs
  · intro s hs
    rcases List.mem_cons.mp hs with rfl | hs
    · exact hlow
    · have := h.low s hs
      have := hr.tag
      have := hr.adjoined
      have := hr.body
      omega

theorem boundsFrom_inOrder {pos skip : Nat} {content : Bytes} {allow : List Bool} :
    InOrder (pos + skip) (boundsFrom pos skip content allow) := by
  induction content generalizing pos skip allow with
  | nil => cases skip <;> exact .nil _
  | cons b rest ih =>
    cases skip with
    | succ skip =>
      rw [boundsFrom]
      exact ih.mono (by omega)
    | zero =>
      have hempty : ∀ n, InOrder pos [⟨⟨pos, pos + n⟩, ⟨pos + n, pos + n⟩⟩] := by
        intro n
        exact .cons ⟨Nat.le_add_right _ _, rfl, Nat.le_refl _⟩ (Nat.le_refl _) (.nil _)
      rw [boundsFrom]
      split
      · exact ih.mono (by omega)
      · rename_i tag htag
        split
        · exact ih.mono (by omega)
        · dsimp only
          split
          · exact hempty _
          · split
            · refine .cons ⟨Nat.le_add_right _ _, rfl, Nat.le_add_right _ _⟩ (Nat.le_refl _) ?_
              have hlen := (getElem?_of_openTagAt? htag).1
              refine ih.mono ?_
              dsimp only
              omega
            · exact hempty _

theorem InOrder.bodies {low : Nat} {found : List RegionBounds} (h : InOrder low found) :
    found.Pairwise fun r s => ¬ Overlap r.body s.body := by
  refine (List.Pairwise.and_mem.mp h.later).imp ?_
  rintro r s ⟨-, hs, hle⟩ ⟨k, ⟨-, hk⟩, hk', -⟩
  have := (h.formed s hs).tag
  have := (h.formed s hs).adjoined
  omega

/-- Neither body overlaps the other's opening tag. -/
def Clear (r s : RegionBounds) : Prop := ¬ Overlap r.body s.tag ∧ ¬ Overlap s.body r.tag

instance : Std.Symm Clear := ⟨fun _ _ h => h.symm⟩

theorem Formed.clear {r : RegionBounds} (h : Formed r) : Clear r r := by
  have hself : ¬ Overlap r.body r.tag := by
    rintro ⟨k, ⟨hk, -⟩, -, hk'⟩
    have := h.adjoined
    omega
  exact ⟨hself, hself⟩

theorem InOrder.tags {low : Nat} {found : List RegionBounds} (h : InOrder low found) :
    ∀ r ∈ found, ∀ s ∈ found, ¬ Overlap r.body s.tag := by
  have hlater : found.Pairwise Clear := by
    refine (List.Pairwise.and_mem.mp h.later).imp ?_
    rintro r s ⟨hr, hs, hle⟩
    have hformed := h.formed r hr
    have hr₁ := hformed.adjoined
    have hr₂ := hformed.body
    have hs₁ := (h.formed s hs).tag
    have hs₂ := (h.formed s hs).adjoined
    constructor
    · rintro ⟨k, ⟨-, hk⟩, hk', -⟩
      omega
    · rintro ⟨k, ⟨hk, -⟩, -, hk'⟩
      omega
  intro r hr s hs
  exact (hlater.forall_of_forall (fun r hr => (h.formed r hr).clear) hr hs).1

/-- **In every file the reported bodies are apart** from each other, from the reported opening
tags and from every closing tag. -/
theorem scanRegionBounds_apart (parser : RegionParser) (content : Bytes) :
    Apart content (scanRegionBounds parser content) := by
  rw [scanRegionBounds]
  split
  · have horder := @boundsFrom_inOrder 0 0 content (mask parser.start content)
    exact ⟨horder.bodies, horder.tags, @boundsFrom_closings [] content 0 _⟩
  · exact ⟨.nil, by simp, by simp⟩

/-! ### The member guard -/

theorem slice_read (read content : Bytes) (i j : Nat) :
    (ByteRange.mk (read.length + i) (read.length + i + j)).slice (read ++ content) =
      (content.drop i).take j := by
  show ((read ++ content).take (read.length + i + j)).drop (read.length + i) = _
  rw [Nat.add_assoc, List.take_length_add_append, List.drop_length_add_append, List.drop_take,
    Nat.add_sub_cancel_left]

theorem slice_empty (content : Bytes) (i : Nat) : (ByteRange.mk i i).slice content = [] :=
  List.drop_eq_nil_of_le (List.length_take_le _ _)

/-- The bytes of a reported region. -/
def RegionBounds.slices (content : Bytes) (r : RegionBounds) : Bytes × Bytes :=
  (r.tag.slice content, r.body.slice content)

theorem scanBounds_eq {read content : Bytes} {skip : Nat} {allow : List Bool} :
    Doc.scanBounds skip content allow =
      (boundsFrom read.length skip content allow).map
        (RegionBounds.slices (read ++ content)) := by
  induction content generalizing read skip allow with
  | nil => cases skip <;> rfl
  | cons b rest ih =>
    have hrest : ∀ {skip : Nat}, Doc.scanBounds skip rest allow.tail =
        (boundsFrom (read.length + 1) skip rest allow.tail).map
          (RegionBounds.slices (read ++ b :: rest)) := by
      intro skip
      rw [show read.length + 1 = (read ++ [b]).length by simp,
        show read ++ b :: rest = (read ++ [b]) ++ rest by simp]
      exact ih
    cases skip with
    | succ skip =>
      rw [Doc.scanBounds, boundsFrom]
      exact hrest
    | zero =>
      have htag : ∀ n, (ByteRange.mk read.length (read.length + n)).slice (read ++ b :: rest) =
          (b :: rest).take n := fun n => slice_read read (b :: rest) 0 n
      cases hopen : openTagAt? (b :: rest) with
      | none =>
        simp only [Doc.scanBounds, boundsFrom, hopen]
        exact hrest
      | some tag =>
        cases hallow : allow.headD false with
        | false =>
          simp only [Doc.scanBounds, boundsFrom, hopen, hallow, if_true]
          exact hrest
        | true =>
          cases hclose : nextCloseTag ((b :: rest).drop tag.length) with
          | none =>
            simp only [Doc.scanBounds, boundsFrom, hopen, hallow, hclose, Bool.true_eq_false,
              if_false, List.map_cons, List.map_nil, RegionBounds.slices, htag, slice_empty]
          | some close =>
            cases hmasked : (allow.drop tag.length).getD close false with
            | false =>
              simp only [Doc.scanBounds, boundsFrom, hopen, hallow, hclose, hmasked,
                Bool.true_eq_false, Bool.false_eq_true, if_false, List.map_cons, List.map_nil,
                RegionBounds.slices, htag, slice_empty]
            | true =>
              simp only [Doc.scanBounds, boundsFrom, hopen, hallow, hclose, hmasked,
                Bool.true_eq_false, if_false, if_true, List.map_cons, RegionBounds.slices, htag,
                slice_read]
              rw [hrest]

/-- **The member guard compares the bytes in the reported ranges.** -/
theorem guard_regions_eq (parser : RegionParser) (content : Bytes) :
    Doc.scanRegionBounds parser content =
      (scanRegionBounds parser content).map (RegionBounds.slices content) := by
  rw [Doc.scanRegionBounds, scanRegionBounds]
  split
  · exact @scanBounds_eq [] content 0 _
  · rfl

theorem slices_of_reports {content : Bytes} {spans : List RegionSpan} {found : List RegionBounds}
    (h : List.Forall₂ (Reports content) spans found) :
    found.map (RegionBounds.slices content) =
      spans.map fun span => (openTag span.id, span.body.slice content) := by
  induction h with
  | nil => rfl
  | cons hreports _ ih =>
    rw [List.map_cons, List.map_cons, ih, RegionBounds.slices, hreports.tag, hreports.body]

/-- **One scanner for both**: where a file parses, the guard sees the tags and the bodies of the
spans that are sealed, and whether it parses or not the reported bodies are apart. -/
theorem regions_agree (cipher : RegionCipher) (path : String) (parser : RegionParser)
    (content : Bytes) :
    (∀ spans, parse cipher path parser content = .ok spans →
      List.Forall₂ (Reports content) spans (scanRegionBounds parser content) ∧
        Doc.scanRegionBounds parser content =
          spans.map fun span => (openTag span.id, span.body.slice content)) ∧
      Apart content (scanRegionBounds parser content) := by
  refine ⟨?_, scanRegionBounds_apart parser content⟩
  intro spans h
  have hreports := scanRegionBounds_eq_spans h
  refine ⟨hreports, ?_⟩
  rw [guard_regions_eq]
  exact slices_of_reports hreports

/-- The guard sees the sealed region of a short file. -/
theorem regions_agree_sample :
    Doc.scanRegionBounds .plainText (ascii "<vault id=\"a\">x</vault>") =
      [(openTag (ascii "a"), ascii "x")] := by
  have h := (regions_agree ⟨fun _ _ _ => none, fun _ _ _ => none, fun _ _ _ _ h => nomatch h⟩ ""
    .plainText (ascii "<vault id=\"a\">x</vault>")).1 [⟨ascii "a", ⟨14, 15⟩, .plaintext⟩]
    (by decide +kernel)
  rw [h.2]
  decide +kernel

/-- The place of an opening or a closing tag. -/
def Marker (content : Bytes) (m : ByteRange) : Prop :=
  (∃ tag, openTagAt? (content.drop m.start) = some tag ∧ m.stop = m.start + tag.length) ∨
    (closes (content.drop m.start) = true ∧ m.stop = m.start + closeMark.length)

/-- A tag inside a body stands in the reported body. -/
theorem nested_tag_reported :
    ¬ ∀ (cipher : RegionCipher) (path : String) (parser : RegionParser) (content : Bytes),
      (∀ spans, parse cipher path parser content ≠ .ok spans) →
        ∀ r ∈ scanRegionBounds parser content, ∀ m, Marker content m → ¬ Overlap r.body m := by
  intro h
  let content := ascii "<vault id=\"a\"><vault id=\"b\">x</vault>"
  let cipher : RegionCipher := ⟨fun _ _ _ => none, fun _ _ _ => none, fun _ _ _ _ h => nomatch h⟩
  have hparse : parse cipher "" .plainText content = .error (.nested (ascii "b")) := by
    decide +kernel
  have hbounds : scanRegionBounds .plainText content = [⟨⟨0, 14⟩, ⟨14, 29⟩⟩] := by
    decide +kernel
  have hmarker : Marker content ⟨14, 28⟩ := by
    refine .inl ⟨⟨ascii "b", 14⟩, ?_, rfl⟩
    decide +kernel
  refine h cipher "" .plainText content ?_ ⟨⟨0, 14⟩, ⟨14, 29⟩⟩ ?_ ⟨14, 28⟩ hmarker ?_
  · intro spans hok
    rw [hparse] at hok
    cases hok
  · rw [hbounds]
    exact List.mem_singleton_self _
  · exact ⟨14, by decide, by decide⟩

end Softfig.LayerB.Bounds
