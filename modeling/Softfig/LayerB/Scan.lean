import Mathlib.Data.List.TakeWhile
import Softfig.Lib.Except
import Softfig.LayerB.Regions

/-!
What the scan of a file finds, as a derivation over its pieces.

A file that parses is woven of gaps, opening tags, bodies and closing tags, and `Scans`
says which weaves parse.

- `scanRegions_weave`: a weave that `Scans` parses into the spans of its regions;
- `weave_of_scanRegions`: what parses is such a weave.
-/

namespace Softfig.LayerB

open Softfig.Store (Bytes)
open Softfig.Lib

/-! ### Runs of the scan state -/

/-- The state after the bytes `read`, which `rest` follows. -/
def ScanState.run (s : ScanState) : Bytes → Bytes → ScanState
  | [], _ => s
  | b :: read, rest => (s.next b (read ++ rest)).run read rest

@[simp]
theorem ScanState.run_nil (s : ScanState) (rest : Bytes) : s.run [] rest = s := rfl

@[simp]
theorem ScanState.run_cons (s : ScanState) (b : UInt8) (read rest : Bytes) :
    s.run (b :: read) rest = (s.next b (read ++ rest)).run read rest := rfl

theorem ScanState.run_append (s : ScanState) (first last rest : Bytes) :
    s.run (first ++ last) rest = (s.run first (last ++ rest)).run last rest := by
  induction first generalizing s with
  | nil => rfl
  | cons b first ih => rw [List.cons_append, run_cons, run_cons, ih, List.append_assoc]

theorem drop_mask (s : ScanState) (read rest : Bytes) :
    (mask s (read ++ rest)).drop read.length = mask (s.run read rest) rest := by
  induction read generalizing s with
  | nil => rfl
  | cons b read ih =>
    rw [List.cons_append, mask, List.length_cons, List.drop_succ_cons, ScanState.run_cons, ih]

theorem getD_mask (s : ScanState) (read : Bytes) (b : UInt8) (rest : Bytes) :
    (mask s (read ++ b :: rest)).getD read.length false =
      (s.run read (b :: rest)).allowed b rest := by
  rw [List.getD_eq_getElem?_getD, ← Nat.add_zero read.length, ← List.getElem?_drop, drop_mask]
  rfl

/-! ### Markers -/

/-- The text of an opening tag. -/
def openTag (id : Bytes) : Bytes := openMark ++ id ++ [quote, greater]

def ValidId (id : Bytes) : Prop :=
  id ≠ [] ∧ id.length ≤ regionIdMax ∧ ∀ b ∈ id, isIdByte b = true

theorem validateId_eq_ok {id : Bytes} : validateId id = .ok () ↔ ValidId id := by
  unfold validateId ValidId
  split
  · simp_all
  · split
    · simp_all
    · split
      · simp_all
      · simp_all

theorem isIdByte_ascii {b : UInt8} (h : isIdByte b = true) : b < 0x80 := by
  simp only [isIdByte, Bool.or_eq_true, Bool.and_eq_true, decide_eq_true_eq, beq_iff_eq,
    UInt8.le_iff_toNat_le, UInt8.lt_iff_toNat_lt, ← UInt8.toNat_inj] at *
  simp at *
  omega

theorem isUtf8_of_ascii {text : Bytes} (h : ∀ b ∈ text, b < 0x80) : isUtf8 text = true := by
  unfold isUtf8
  induction text with
  | nil => rfl
  | cons b rest ih =>
    simp only [List.mem_cons, forall_eq_or_imp] at h
    simp only [isUtf8From, Utf8Scan.next, if_pos h.1]
    exact ih h.2

theorem ValidId.quote_notMem {id : Bytes} (h : ValidId id) : quote ∉ id := by
  intro hmem
  exact absurd (h.2.2 quote hmem) (by decide)

theorem afterMark?_eq_some {mark content rest : Bytes} :
    afterMark? mark content = some rest ↔ content = mark ++ rest := by
  unfold afterMark?
  constructor
  · intro h
    split at h
    · rename_i hp
      obtain ⟨t, rfl⟩ := List.isPrefixOf_iff_prefix.mp hp
      rw [List.drop_left] at h
      rw [Option.some.inj h]
    · cases h
  · rintro rfl
    rw [if_pos (List.isPrefixOf_iff_prefix.mpr (List.prefix_append _ _)), List.drop_left]

theorem length_openTag (id : Bytes) : (openTag id).length = openMark.length + id.length + 2 := by
  simp only [openTag, List.length_append, List.length_cons, List.length_nil]

theorem openTag_eq_cons (id : Bytes) : ∃ read, openTag id = less :: read :=
  ⟨openMark.tail ++ id ++ [quote, greater], rfl⟩

/-- **An opening tag**: the mark, an id that holds no quote, and the quote and the angle
bracket after it. -/
theorem openTagAt?_eq_some {content : Bytes} {tag : OpenTag} :
    openTagAt? content = some tag ↔
      quote ∉ tag.id ∧ isUtf8 tag.id = true ∧ tag.length = (openTag tag.id).length ∧
        ∃ rest, content = openTag tag.id ++ rest := by
  obtain ⟨id, length⟩ := tag
  constructor
  · intro h
    unfold openTagAt? at h
    split at h
    · cases h
    · rename_i attr hattr
      have hcontent := afterMark?_eq_some.mp hattr
      have hsplit := List.takeWhile_append_dropWhile (p := (· ≠ quote)) (l := attr)
      have hdrop : attr.drop (attr.takeWhile (· ≠ quote)).length = attr.dropWhile (· ≠ quote) := by
        nth_rewrite 2 [← hsplit]
        exact List.drop_left
      dsimp only at h
      rw [hdrop] at h
      split at h
      · rename_i q after rest hafter
        split at h
        · rename_i hgt
          cases h
          have hquote : q = quote := by
            have hhead := List.head?_dropWhile_not (fun b => decide (b ≠ quote)) attr
            rw [hafter] at hhead
            simpa using hhead
          refine ⟨?_, hgt.2, ?_, rest, ?_⟩
          · intro hmem
            simpa using List.mem_takeWhile_imp (p := fun b => decide (b ≠ quote)) hmem
          · rw [length_openTag]
          · rw [hafter, hquote, hgt.1] at hsplit
            simp only [openTag, List.append_assoc, List.cons_append, List.nil_append]
            rw [hcontent, hsplit]
        · cases h
      · cases h
  · rintro ⟨hquote, hutf8, hlength, rest, rfl⟩
    have hmark : afterMark? openMark (openTag id ++ rest) = some (id ++ quote :: greater :: rest) := by
      rw [afterMark?_eq_some]
      simp [openTag]
    have hall : ∀ b ∈ id, decide (b ≠ quote) = true := by
      intro b hb
      simpa using fun h : b = quote => hquote (h ▸ hb)
    have htake : (id ++ quote :: greater :: rest).takeWhile (· ≠ quote) = id := by
      rw [List.takeWhile_append_of_pos hall]
      simp
    have hlen : length = openMark.length + id.length + 2 := hlength.trans (length_openTag id)
    simp only [openTagAt?, hmark, htake, List.drop_left, hutf8, hlen, and_self, if_true]

theorem openTagAt?_openTag {id : Bytes} (h : ValidId id) (rest : Bytes) :
    openTagAt? (openTag id ++ rest) = some ⟨id, (openTag id).length⟩ := by
  refine openTagAt?_eq_some.mpr ⟨h.quote_notMem, ?_, rfl, rest, rfl⟩
  exact isUtf8_of_ascii fun b hb => isIdByte_ascii (h.2.2 b hb)

/-- No suffix of the text that begins before `rest` satisfies `p`. -/
def Absent (p : Bytes → Bool) : Bytes → Bytes → Prop
  | [], _ => True
  | b :: text, rest => p (b :: (text ++ rest)) = false ∧ Absent p text rest

def opens (content : Bytes) : Bool := (openTagAt? content).isSome

def closes (content : Bytes) : Bool := closeMark.isPrefixOf content

theorem closes_closeMark (rest : Bytes) : closes (closeMark ++ rest) = true :=
  List.isPrefixOf_iff_prefix.mpr (List.prefix_append _ _)

theorem nextCloseTag_of_absent {body rest : Bytes} (h : Absent closes body (closeMark ++ rest)) :
    nextCloseTag (body ++ (closeMark ++ rest)) = some body.length := by
  induction body with
  | nil =>
    show nextCloseTag (closeMark ++ rest) = some 0
    rw [show closeMark = less :: closeMark.tail from rfl, List.cons_append, nextCloseTag, if_pos]
    exact closes_closeMark rest
  | cons b body ih =>
    have hb : closes (b :: (body ++ (closeMark ++ rest))) = false := h.1
    rw [List.cons_append, nextCloseTag, if_neg (by rw [closes] at hb; rw [hb]; simp), ih h.2]
    rfl

theorem absent_of_nextCloseTag {after : Bytes} {close : Nat} (h : nextCloseTag after = some close) :
    ∃ body rest, after = body ++ (closeMark ++ rest) ∧ body.length = close ∧
      Absent closes body (closeMark ++ rest) := by
  induction after generalizing close with
  | nil => cases h
  | cons b after ih =>
    rw [nextCloseTag] at h
    split at h
    · rename_i hclose
      obtain ⟨rest, hrest⟩ := List.isPrefixOf_iff_prefix.mp hclose
      cases h
      exact ⟨[], rest, hrest.symm, rfl, trivial⟩
    · rename_i hclose
      obtain ⟨close, hclosed, rfl⟩ := Option.map_eq_some_iff.mp h
      obtain ⟨body, rest, rfl, rfl, habsent⟩ := ih hclosed
      exact ⟨b :: body, rest, rfl, rfl, Bool.eq_false_iff.mpr hclose, habsent⟩

/-- The next opening tag stands at or after the end of a text where none opens. -/
theorem absent_opens_iff {text rest : Bytes} :
    Absent opens text rest ↔
      ∀ inner tag, nextOpenTag (text ++ rest) = some (inner, tag) → text.length ≤ inner := by
  induction text with
  | nil => simp [Absent]
  | cons b text ih =>
    rw [List.cons_append, nextOpenTag, Absent, ih]
    cases hopen : openTagAt? (b :: (text ++ rest)) with
    | some tag =>
      simp only [opens, hopen, Option.isSome_some, Bool.true_eq_false, false_and, false_iff]
      intro h
      have := h 0 tag rfl
      simp at this
    | none =>
      simp only [opens, hopen, Option.isSome_none, true_and, Option.map_eq_some_iff, Prod.exists,
        List.length_cons]
      constructor
      · rintro h inner tag ⟨i, t, hnext, heq⟩
        cases heq
        exact Nat.succ_le_succ (h i _ hnext)
      · intro h inner tag hnext
        exact Nat.le_of_succ_le_succ (h (inner + 1) tag ⟨inner, tag, hnext, rfl⟩)

/-! ### Weaves -/

/-- A region and the bytes before its opening tag. -/
structure Region where
  gap : Bytes
  id : Bytes
  body : Bytes
  deriving DecidableEq

/-- The file of these regions, with `tail` after the last one. -/
def weave : List Region → Bytes → Bytes
  | [], tail => tail
  | r :: more, tail => r.gap ++ (openTag r.id ++ (r.body ++ (closeMark ++ weave more tail)))

/-- No opening tag that counts begins in the gap. -/
def Quiet (s : ScanState) : Bytes → Bytes → Prop
  | [], _ => True
  | b :: gap, rest =>
    (opens (b :: (gap ++ rest)) = false ∨ s.allowed b (gap ++ rest) = false) ∧
      Quiet (s.next b (gap ++ rest)) gap rest

/-- Whether the byte `less` at the head of `<…>` may begin a tag in this state. -/
def ScanState.allows (s : ScanState) (content : Bytes) : Prop :=
  s.allowed less content.tail = true

/-- The state at the opening tag of a region. -/
def ScanState.atOpen (s : ScanState) (r : Region) (rest : Bytes) : ScanState :=
  s.run r.gap (openTag r.id ++ (r.body ++ (closeMark ++ rest)))

/-- The state after a region. -/
def ScanState.past (s : ScanState) (r : Region) (rest : Bytes) : ScanState :=
  (s.atOpen r rest).run (openTag r.id ++ (r.body ++ closeMark)) rest

/-- One region of a file that parses: its opening and its closing tag count, its id is
well formed and new, and no tag begins in its body. -/
structure RegionScans (s : ScanState) (seen : List Bytes) (r : Region) (rest : Bytes) : Prop where
  quiet : Quiet s r.gap (openTag r.id ++ (r.body ++ (closeMark ++ rest)))
  opened : (s.atOpen r rest).allows (openTag r.id ++ (r.body ++ (closeMark ++ rest)))
  valid : ValidId r.id
  fresh : r.id ∉ seen
  unclosed : Absent closes r.body (closeMark ++ rest)
  unnested : Absent opens r.body (closeMark ++ rest)
  closed : ((s.atOpen r rest).run (openTag r.id ++ r.body) (closeMark ++ rest)).allows
    (closeMark ++ rest)

/-- A file of these regions parses. -/
def Scans : ScanState → List Bytes → List Region → Bytes → Prop
  | s, _, [], tail => Quiet s tail []
  | s, seen, r :: more, tail =>
    RegionScans s seen r (weave more tail) ∧
      Scans (s.past r (weave more tail)) (r.id :: seen) more tail

section Session

variable (cipher : RegionCipher) (path : String)

/-- The spans of a weave that begins at byte `pos`. -/
def spansAt : Nat → List Region → List RegionSpan
  | _, [] => []
  | pos, r :: more =>
    let start := pos + (r.gap ++ openTag r.id).length
    { id := r.id
      body := ⟨start, start + r.body.length⟩
      kind := classifyBody cipher path r.body r.id } ::
      spansAt (start + r.body.length + closeMark.length) more

variable {cipher path}

theorem scanRegions_skip (seen : List Bytes) (pos : Nat) (read rest : Bytes) (allow : List Bool) :
    scanRegions cipher path seen pos read.length (read ++ rest) allow =
      scanRegions cipher path seen (pos + read.length) 0 rest (allow.drop read.length) := by
  induction read generalizing pos allow with
  | nil => simp
  | cons b read ih =>
    rw [List.length_cons, List.cons_append, scanRegions, ih, ← List.drop_one, List.drop_drop]
    congr 1
    · omega
    · congr 1
      omega

theorem scanRegions_pass {seen : List Bytes} {pos : Nat} {b : UInt8} {rest : Bytes}
    {allow : List Bool}
    (h : opens (b :: rest) = false ∨ allow.headD false = false) :
    scanRegions cipher path seen pos 0 (b :: rest) allow =
      scanRegions cipher path seen (pos + 1) 0 rest allow.tail := by
  conv_lhs => unfold scanRegions
  cases htag : openTagAt? (b :: rest) with
  | none => rfl
  | some tag =>
    rw [opens, htag] at h
    exact if_pos (h.resolve_left (by simp))

theorem closeRegion_eq_ok {seen : List Bytes} {tag : OpenTag} {after : Bytes} {allow : List Bool}
    {close : Nat} :
    closeRegion seen tag after allow = .ok close ↔
      ValidId tag.id ∧ tag.id ∉ seen ∧ allow.getD close false = true ∧
        ∃ body rest, after = body ++ (closeMark ++ rest) ∧ body.length = close ∧
          Absent closes body (closeMark ++ rest) ∧ Absent opens body (closeMark ++ rest) := by
  rw [← validateId_eq_ok]
  unfold closeRegion
  constructor
  · intro h
    cases hvalid : validateId tag.id with
    | error e => simp [hvalid] at h
    | ok u =>
      cases hclose : nextCloseTag after with
      | none =>
        simp only [hvalid, hclose] at h
        split at h <;> cases h
      | some found =>
        obtain ⟨body, rest, rfl, rfl, hunclosed⟩ := absent_of_nextCloseTag hclose
        simp only [hvalid, hclose] at h
        split at h
        · cases h
        · rename_i hseen
          split at h
          · cases h
          · rename_i hallow
            have hallow : allow.getD body.length false = true := by simpa using hallow
            have hinner : ∀ inner t,
                nextOpenTag (body ++ (closeMark ++ rest)) = some (inner, t) →
                  body.length ≤ inner := by
              intro inner t hnext
              rw [hnext] at h
              dsimp only at h
              split at h
              · cases h
              · omega
            have hok : body.length = close := by
              split at h
              · split at h
                · cases h
                · exact Except.ok.inj h
              · exact Except.ok.inj h
            subst hok
            exact ⟨rfl, hseen, hallow, body, rest, rfl, rfl, hunclosed,
              absent_opens_iff.mpr hinner⟩
  · rintro ⟨hvalid, hseen, hallow, body, rest, rfl, rfl, hunclosed, hunnested⟩
    have hinner := absent_opens_iff.mp hunnested
    rw [hvalid, nextCloseTag_of_absent hunclosed]
    dsimp only
    rw [if_neg hseen, if_neg (by rw [hallow]; decide)]
    cases hnext : nextOpenTag (body ++ (closeMark ++ rest)) with
    | none => rfl
    | some found =>
      have hle := hinner found.1 found.2 hnext
      exact if_neg (by omega)

variable (cipher path) in
/-- A gap where nothing opens is passed over. -/
theorem scanRegions_gap {s : ScanState} {gap rest : Bytes} (h : Quiet s gap rest)
    (seen : List Bytes) (pos : Nat) :
    scanRegions cipher path seen pos 0 (gap ++ rest) (mask s (gap ++ rest)) =
      scanRegions cipher path seen (pos + gap.length) 0 rest (mask (s.run gap rest) rest) := by
  induction gap generalizing s pos with
  | nil => rfl
  | cons b gap ih =>
    rw [List.cons_append, scanRegions_pass h.1, mask, List.tail_cons, ih h.2, ScanState.run_cons,
      List.length_cons, Nat.add_right_comm, Nat.add_assoc]

variable (cipher path) in
theorem scanRegions_open (seen : List Bytes) (pos : Nat) {b : UInt8} {rest : Bytes}
    {allow : List Bool} {tag : OpenTag} (htag : openTagAt? (b :: rest) = some tag)
    (hallow : allow.headD false = true) :
    scanRegions cipher path seen pos 0 (b :: rest) allow = (do
      let close ← closeRegion seen tag ((b :: rest).drop tag.length) (allow.drop tag.length)
      let spans ← scanRegions cipher path (tag.id :: seen) (pos + 1)
        (tag.length + close + closeMark.length - 1) rest allow.tail
      return {
        id := tag.id
        body := ⟨pos + tag.length, pos + tag.length + close⟩
        kind := classifyBody cipher path (((b :: rest).drop tag.length).take close) tag.id }
          :: spans) := by
  conv_lhs => unfold scanRegions
  rw [htag]
  exact if_neg (by rw [hallow]; decide)

/-- The scan at an opening tag that counts. -/
theorem scanRegions_tag {s : ScanState} {seen : List Bytes} {pos : Nat} {id after : Bytes}
    {spans : List RegionSpan}
    (htag : openTagAt? (openTag id ++ after) = some ⟨id, (openTag id).length⟩)
    (hopened : s.allows (openTag id ++ after)) :
    scanRegions cipher path seen pos 0 (openTag id ++ after)
        (mask s (openTag id ++ after)) = .ok spans ↔
      ∃ body rest more, after = body ++ (closeMark ++ rest) ∧
        ValidId id ∧ id ∉ seen ∧
        Absent closes body (closeMark ++ rest) ∧ Absent opens body (closeMark ++ rest) ∧
        (s.run (openTag id ++ body) (closeMark ++ rest)).allows (closeMark ++ rest) ∧
        scanRegions cipher path (id :: seen)
            (pos + (openTag id).length + body.length + closeMark.length) 0 rest
            (mask (s.run (openTag id ++ (body ++ closeMark)) rest) rest) = .ok more ∧
        spans = {
          id := id
          body := ⟨pos + (openTag id).length, pos + (openTag id).length + body.length⟩
          kind := classifyBody cipher path body id } :: more := by
  obtain ⟨read, hread⟩ := openTag_eq_cons id
  have hdrop : (openTag id ++ after).drop (openTag id).length = after := List.drop_left
  have hmask : (mask s (openTag id ++ after)).drop (openTag id).length =
      mask (s.run (openTag id) after) after := by
    rw [drop_mask]
  have hhead : (mask s (openTag id ++ after)).headD false = true := by
    rw [hread] at hopened ⊢
    exact hopened
  have hscan : scanRegions cipher path seen pos 0 (openTag id ++ after)
        (mask s (openTag id ++ after)) = (do
      let close ← closeRegion seen ⟨id, (openTag id).length⟩ after (mask (s.run (openTag id) after) after)
      let spans ← scanRegions cipher path (id :: seen) (pos + 1)
        ((openTag id).length + close + closeMark.length - 1) (openTag id ++ after).tail
        (mask s (openTag id ++ after)).tail
      return {
        id := id
        body := ⟨pos + (openTag id).length, pos + (openTag id).length + close⟩
        kind := classifyBody cipher path (after.take close) id } :: spans) := by
    have hless : openTagAt? (less :: (read ++ after)) = some ⟨id, (openTag id).length⟩ := by
      rw [← List.cons_append, ← hread]
      exact htag
    have hopen := scanRegions_open cipher path seen pos hless hhead
    rw [← List.cons_append, ← hread, hdrop, hmask] at hopen
    rw [hopen, hread]
    rfl
  rw [hscan, bind_ok_iff]
  have hrest : ∀ body rest, after = body ++ (closeMark ++ rest) →
      scanRegions cipher path (id :: seen) (pos + 1)
          ((openTag id).length + body.length + closeMark.length - 1) (openTag id ++ after).tail
          (mask s (openTag id ++ after)).tail =
        scanRegions cipher path (id :: seen)
          (pos + (openTag id).length + body.length + closeMark.length) 0 rest
          (mask (s.run (openTag id ++ (body ++ closeMark)) rest) rest) := by
    rintro body rest rfl
    have hskip : (openTag id).length + body.length + closeMark.length - 1 =
        (read ++ (body ++ closeMark)).length := by
      rw [hread]
      simp only [List.length_append, List.length_cons]
      omega
    have htail : (openTag id ++ (body ++ (closeMark ++ rest))).tail =
        read ++ (body ++ closeMark) ++ rest := by
      rw [hread]
      simp
    have hallow : (mask s (openTag id ++ (body ++ (closeMark ++ rest)))).tail.drop
        (read ++ (body ++ closeMark)).length =
          mask (s.run (openTag id ++ (body ++ closeMark)) rest) rest := by
      rw [← List.drop_one, List.drop_drop]
      have := drop_mask s (openTag id ++ (body ++ closeMark)) rest
      rw [hread] at this ⊢
      simpa [Nat.add_comm] using this
    rw [hskip, htail, scanRegions_skip, hallow]
    congr 1
    rw [hread]
    simp only [List.length_append, List.length_cons]
    omega
  have hclosed : ∀ body rest, after = body ++ (closeMark ++ rest) →
      ((mask (s.run (openTag id) after) after).getD body.length false = true ↔
        (s.run (openTag id ++ body) (closeMark ++ rest)).allows (closeMark ++ rest)) := by
    rintro body rest rfl
    rw [ScanState.run_append]
    exact iff_of_eq (congrArg (· = true) (getD_mask _ body less (closeMark.tail ++ rest)))
  constructor
  · rintro ⟨close, hclose, h⟩
    obtain ⟨more, hmore, h⟩ := bind_ok_iff.mp h
    obtain ⟨hvalid, hseen, hallow, body, rest, hafter, rfl, hunclosed, hunnested⟩ :=
      closeRegion_eq_ok.mp hclose
    refine ⟨body, rest, more, hafter, hvalid, hseen, hunclosed, hunnested,
      (hclosed body rest hafter).mp hallow, ?_, ?_⟩
    · rw [← hrest body rest hafter, hmore]
    · cases h
      rw [hafter, List.take_left]
  · rintro ⟨body, rest, more, hafter, hvalid, hseen, hunclosed, hunnested, hallow, hmore, rfl⟩
    refine ⟨body.length, closeRegion_eq_ok.mpr ⟨hvalid, hseen, (hclosed body rest hafter).mpr hallow,
      body, rest, hafter, rfl, hunclosed, hunnested⟩, bind_ok_iff.mpr ⟨more, ?_, ?_⟩⟩
    · rw [hrest body rest hafter, hmore]
    · rw [hafter, List.take_left]
      rfl

theorem scanRegions_weave {s : ScanState} {seen : List Bytes} {regions : List Region}
    {tail : Bytes} (h : Scans s seen regions tail) (pos : Nat) :
    scanRegions cipher path seen pos 0 (weave regions tail) (mask s (weave regions tail)) =
      .ok (spansAt cipher path pos regions) := by
  induction regions generalizing s seen pos with
  | nil =>
    have hgap := scanRegions_gap cipher path h seen pos
    rw [List.append_nil] at hgap
    exact hgap
  | cons r more ih =>
    obtain ⟨hr, hmore⟩ := h
    have htag := openTagAt?_openTag hr.valid (r.body ++ (closeMark ++ weave more tail))
    have hopened : (s.run r.gap _).allows _ := hr.opened
    rw [weave, scanRegions_gap cipher path hr.quiet, scanRegions_tag htag hopened]
    have hrest := ih hmore
      (pos + r.gap.length + (openTag r.id).length + r.body.length + closeMark.length)
    refine ⟨r.body, weave more tail, _, rfl, hr.valid, hr.fresh, hr.unclosed, hr.unnested,
      hr.closed, hrest, ?_⟩
    · simp only [spansAt, List.length_append, Nat.add_assoc]

theorem weave_of_scanRegions {s : ScanState} {seen : List Bytes} {pos : Nat} {content : Bytes}
    {spans : List RegionSpan}
    (h : scanRegions cipher path seen pos 0 content (mask s content) = .ok spans) :
    ∃ regions tail, content = weave regions tail ∧ Scans s seen regions tail ∧
      spans = spansAt cipher path pos regions := by
  induction hlen : content.length using Nat.strong_induction_on
    generalizing s seen pos content spans with
  | h n ih =>
    subst hlen
    cases content with
    | nil =>
      cases h
      exact ⟨[], [], rfl, trivial, rfl⟩
    | cons b rest =>
      by_cases hcount : opens (b :: rest) = false ∨ s.allowed b rest = false
      · rw [scanRegions_pass hcount, mask, List.tail_cons] at h
        obtain ⟨regions, tail, rfl, hscans, rfl⟩ := ih _ (Nat.lt_succ_self _) h rfl
        cases regions with
        | nil =>
          refine ⟨[], b :: tail, rfl, ⟨?_, ?_⟩, rfl⟩
          · simpa [weave] using hcount
          · simpa [weave, Scans] using hscans
        | cons r more =>
          obtain ⟨gap, id, body⟩ := r
          refine ⟨⟨b :: gap, id, body⟩ :: more, tail, rfl, ⟨?_, hscans.2⟩, ?_⟩
          · exact ⟨⟨hcount, hscans.1.quiet⟩, hscans.1.opened, hscans.1.valid, hscans.1.fresh,
              hscans.1.unclosed, hscans.1.unnested, hscans.1.closed⟩
          · simp only [spansAt, List.cons_append, List.length_cons, Nat.add_assoc,
              Nat.add_comm 1]
      · obtain ⟨hopens, hallowed⟩ := not_or.mp hcount
        obtain ⟨tag, htag⟩ := Option.isSome_iff_exists.mp (Bool.not_eq_false _ ▸ hopens)
        obtain ⟨-, -, hlength, after, hafter⟩ := openTagAt?_eq_some.mp htag
        obtain ⟨id, length⟩ := tag
        dsimp only at hlength hafter
        subst hlength
        obtain ⟨read, hread⟩ := openTag_eq_cons id
        rw [hread, List.cons_append] at hafter
        obtain ⟨rfl, rfl⟩ := List.cons.inj hafter
        rw [← List.cons_append, ← hread] at htag h ⊢
        have hopened : s.allows (openTag id ++ after) := by
          rw [ScanState.allows, hread]
          simpa using hallowed
        obtain ⟨body, rest, more, rfl, hvalid, hseen, hunclosed, hunnested, hclosed, hmore, rfl⟩ :=
          (scanRegions_tag htag hopened).mp h
        obtain ⟨regions, tail, rfl, hscans, rfl⟩ := ih rest.length (by simp; omega) hmore rfl
        refine ⟨⟨[], id, body⟩ :: regions, tail, rfl, ⟨?_, hscans⟩, ?_⟩
        · exact ⟨trivial, hopened, hvalid, hseen, hunclosed, hunnested, hclosed⟩
        · simp only [spansAt, List.nil_append, Nat.add_assoc]

end Session

end Softfig.LayerB
