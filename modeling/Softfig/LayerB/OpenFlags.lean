import Softfig.LayerB.Masks

/-!
The opening tags that count, over bodies the scan reads as nothing.

A body of inert bytes leaves the state of the scan as the opening tag left it, so the
states of a file whose bodies are inert depend on its gaps and ids alone.

- `openFlags_of_scans`: in a file that parses the tags of its regions count and no other;
- `openFlags_inert`: the tags that count do not depend on inert bodies;
- `scans_of_openFlags`: a file of inert bodies whose flags are those of its regions
  parses into them.
-/

namespace Softfig.LayerB

open Softfig.Store (Bytes)
open Softfig.Lib

/-! ### Bytes that leave the state -/

/-- A byte that moves no state but one that is looking ahead. -/
def Neutral (b : UInt8) : Prop :=
  b ≠ newline ∧ b ≠ quote ∧ b ≠ hashSign ∧ b ≠ apostrophe ∧ b ≠ backslash ∧ b ≠ backtick

instance (b : UInt8) : Decidable (Neutral b) := inferInstanceAs (Decidable (_ ∧ _))

/-- A body that begins no tag and moves no state. -/
def Inert (body : Bytes) : Prop := ∀ b ∈ body, Neutral b ∧ b ≠ less

/-- A state that is neither at a line start nor counting backticks or passing bytes over. -/
def ScanState.Ready : ScanState → Prop
  | .markdown (.fenced _) => True
  | .markdown (.prose _ 0) => True
  | .toml _ 0 => True
  | .plainText => True
  | _ => False

/-- What holds of every state of a scan: two bytes are passed over at most, and none in a
comment. -/
def ScanState.Lawful : ScanState → Prop
  | .toml s skip => skip ≤ 2 ∧ (s = .comment → skip = 0)
  | _ => True

/-- A tag may begin in this state. -/
def ScanState.Open : ScanState → Prop
  | .markdown (.lineStart inFence) => inFence = false
  | .markdown (.fenced _) => False
  | .markdown (.prose inlineRun run) => settleRun inlineRun run = none
  | .toml s _ => s ≠ .comment
  | .plainText => True

instance : (s : ScanState) → Decidable s.Open
  | .markdown (.lineStart inFence) => inferInstanceAs (Decidable (inFence = false))
  | .markdown (.fenced _) => inferInstanceAs (Decidable False)
  | .markdown (.prose inlineRun run) =>
    inferInstanceAs (Decidable (settleRun inlineRun run = none))
  | .toml s _ => inferInstanceAs (Decidable (s ≠ .comment))
  | .plainText => inferInstanceAs (Decidable True)

theorem RegionParser.start_lawful (parser : RegionParser) : parser.start.Lawful := by
  cases parser with
  | markdown => trivial
  | toml => exact ⟨by decide, fun _ => rfl⟩
  | plainText => trivial

theorem TomlScan.step_lawful (s : TomlScan) (b : UInt8) (rest : Bytes) :
    (s.step b rest).2 ≤ 2 ∧ ((s.step b rest).1 = .comment → (s.step b rest).2 = 0) := by
  cases s <;> simp only [step] <;> split_ifs <;> simp

theorem ScanState.Lawful.next {s : ScanState} (h : s.Lawful) (b : UInt8) (rest : Bytes) :
    (s.next b rest).Lawful := by
  cases s with
  | markdown s => trivial
  | toml s skip =>
    cases skip with
    | zero => exact s.step_lawful b rest
    | succ skip =>
      refine ⟨by have := h.1; omega, fun hs => ?_⟩
      have := h.2 hs
      omega
  | plainText => trivial

theorem ScanState.Lawful.run {s : ScanState} (h : s.Lawful) (text rest : Bytes) :
    (s.run text rest).Lawful := by
  induction text generalizing s with
  | nil => exact h
  | cons b text ih => exact ih (h.next b (text ++ rest))

/-- A tag at a line start is no fence. -/
theorem fence_tag (rest : Bytes) :
    (ascii "```").isPrefixOf ((less :: rest).dropWhile (· == space)) = false := rfl

theorem neutral_less : Neutral less := by decide

theorem ScanState.allowed_iff_open {s : ScanState} (h : s.Lawful) (rest : Bytes) :
    s.allowed less rest = true ↔ s.Open := by
  have hnewline : less ≠ newline := neutral_less.1
  have hbacktick : less ≠ backtick := neutral_less.2.2.2.2.2
  have hhash : less ≠ hashSign := neutral_less.2.2.1
  cases s with
  | markdown s =>
    cases s with
    | lineStart inFence =>
      simp only [allowed, MarkdownScan.allowed, MarkdownScan.enter, fence_tag, Bool.or_false, Open]
      cases inFence with
      | false => simp [hnewline, hbacktick, settleRun]
      | true => simp
    | fenced inFence => simp [allowed, MarkdownScan.allowed, MarkdownScan.enter, Open]
    | prose inlineRun run =>
      simp [allowed, MarkdownScan.allowed, MarkdownScan.enter, Open, hnewline, hbacktick]
  | toml s skip =>
    cases skip with
    | zero => cases s <;> simp [allowed, TomlScan.allowed, Open, hhash, hnewline]
    | succ skip =>
      have hne : s ≠ .comment := fun hs => by
        have := h.2 hs
        omega
      simp [allowed, Open, hne]
  | plainText => simp [allowed, Open]

/-- A tag that counts stands in prose, outside any code span. -/
theorem MarkdownScan.next_tag {s : MarkdownScan} (h : (ScanState.markdown s).Open) (rest : Bytes) :
    s.next less rest = .prose none 0 := by
  have hnewline : less ≠ newline := neutral_less.1
  have hbacktick : less ≠ backtick := neutral_less.2.2.2.2.2
  cases s with
  | lineStart inFence =>
    have hfence : inFence = false := h
    simp [next, enter, fence_tag, hfence, hnewline, hbacktick, settleRun]
  | fenced inFence => exact absurd h id
  | prose inlineRun run =>
    have hrun : settleRun inlineRun run = none := h
    simp [next, enter, hnewline, hbacktick, hrun]

theorem TomlScan.step_neutral (s : TomlScan) {b : UInt8} (hb : Neutral b) (rest : Bytes) :
    s.step b rest = (s, 0) := by
  obtain ⟨hnewline, hquote, hhash, hapostrophe, hbackslash, -⟩ := hb
  cases s <;> simp [step, hnewline, hquote, hhash, hapostrophe, hbackslash]

theorem ScanState.next_neutral {s : ScanState} (h : s.Ready) {b : UInt8} (hb : Neutral b)
    (rest : Bytes) : s.next b rest = s := by
  match s, h with
  | .markdown (.fenced inFence), _ =>
    simp [next, MarkdownScan.next, MarkdownScan.enter, hb.1]
  | .markdown (.prose inlineRun 0), _ =>
    simp [next, MarkdownScan.next, MarkdownScan.enter, hb.1, hb.2.2.2.2.2, settleRun]
  | .toml s 0, _ => simp [next, s.step_neutral hb]
  | .plainText, _ => rfl

theorem ScanState.run_neutral {s : ScanState} (h : s.Ready) {text : Bytes}
    (htext : ∀ b ∈ text, Neutral b) (rest : Bytes) : s.run text rest = s := by
  induction text with
  | nil => rfl
  | cons b text ih =>
    simp only [List.mem_cons, forall_eq_or_imp] at htext
    rw [run_cons, next_neutral h htext.1, ih htext.2]

theorem Inert.run {s : ScanState} (h : s.Ready) {body : Bytes} (hbody : Inert body)
    (rest : Bytes) : s.run body rest = s :=
  ScanState.run_neutral h (fun b hb => (hbody b hb).1) rest

theorem closeMark_neutral : ∀ b ∈ closeMark, Neutral b := by decide +kernel

/-! ### The state after an opening tag -/

theorem isIdByte_neutral {b : UInt8} (h : isIdByte b = true) : Neutral b := by
  refine ⟨?_, ?_, ?_, ?_, ?_, ?_⟩ <;>
  · rintro rfl
    exact absurd h (by decide)

theorem ScanState.toml_next_neutral (s : TomlScan) (skip : Nat) {b : UInt8} (hb : Neutral b)
    (rest : Bytes) : (toml s skip).next b rest = toml s (skip - 1) := by
  cases skip with
  | zero => simp [next, s.step_neutral hb]
  | succ skip => rfl

theorem MarkdownScan.next_less_ready (s : MarkdownScan) (rest : Bytes) :
    (ScanState.markdown (s.next less rest)).Ready := by
  cases s with
  | lineStart inFence =>
    simp only [next, enter, fence_tag, Bool.or_false]
    cases inFence <;> trivial
  | fenced inFence => trivial
  | prose inlineRun run => trivial

/-- The first two bytes of a tag end a lookahead. -/
theorem ScanState.ready_of_tag {s : ScanState} (h : s.Lawful) {b : UInt8} (hb : Neutral b)
    (rest : Bytes) : (s.run [less, b] rest).Ready := by
  rw [run_cons, run_cons, run_nil]
  cases s with
  | markdown s =>
    have hfirst := s.next_less_ready ([b] ++ rest)
    have hnext : (markdown s).next less ([b] ++ rest) = markdown (s.next less ([b] ++ rest)) := rfl
    rw [hnext, next_neutral hfirst hb]
    exact hfirst
  | toml s skip =>
    have hskip : skip - 1 - 1 = 0 := by
      have := h.1
      omega
    rw [toml_next_neutral s skip neutral_less, toml_next_neutral s (skip - 1) hb, hskip]
    trivial
  | plainText => trivial

theorem ScanState.open_of_tag {s : ScanState} (hopen : s.Open) {b : UInt8} (hb : Neutral b)
    (rest : Bytes) : (s.run [less, b] rest).Open := by
  rw [run_cons, run_cons, run_nil]
  cases s with
  | markdown s =>
    have hfirst : (markdown s).next less ([b] ++ rest) = markdown (.prose none 0) :=
      congrArg markdown (MarkdownScan.next_tag hopen _)
    rw [hfirst, next_neutral (by trivial) hb]
    rfl
  | toml s skip =>
    rw [toml_next_neutral s skip neutral_less, toml_next_neutral s (skip - 1) hb]
    exact hopen
  | plainText => trivial

/-- A quote that no quote follows passes no byte over and begins no comment. -/
theorem TomlScan.step_quote (s : TomlScan) {b : UInt8} (hb : b ≠ quote) (rest : Bytes) :
    (s.step quote (b :: rest)).2 = 0 ∧ ((s.step quote (b :: rest)).1 = .comment → s = .comment) := by
  have hquotes : (ascii "\"\"").isPrefixOf (b :: rest) = false := by
    have heq : ascii "\"\"" = [quote, quote] := by decide
    have hne : (quote == b) = false := by simpa using Ne.symm hb
    simp [heq, List.isPrefixOf, hne]
  have hhash : quote ≠ hashSign := by decide
  have hnewline : quote ≠ newline := by decide
  have hbackslash : quote ≠ backslash := by decide
  have hapostrophe : quote ≠ apostrophe := by decide
  cases s <;> simp [step, hquotes, hhash, hnewline, hbackslash, hapostrophe]

theorem ScanState.next_quote {s : ScanState} (h : s.Ready) {b : UInt8} (hb : b ≠ quote)
    (rest : Bytes) : (s.next quote (b :: rest)).Ready ∧ (s.Open → (s.next quote (b :: rest)).Open) := by
  match s, h with
  | .markdown (.fenced inFence), _ => exact ⟨trivial, id⟩
  | .markdown (.prose inlineRun 0), _ => exact ⟨trivial, id⟩
  | .toml s 0, _ =>
    obtain ⟨hskip, hcomment⟩ := s.step_quote hb rest
    rw [next, hskip]
    exact ⟨trivial, mt hcomment⟩
  | .plainText, _ => exact ⟨trivial, id⟩

/-- The first bytes of an opening tag after the angle bracket. -/
theorem openMark_eq : ∃ b text, openMark = [less, b] ++ (text ++ [quote]) ∧ Neutral b ∧
    ∀ c ∈ text, Neutral c :=
  ⟨118, ascii "ault id=", by decide, by decide, by decide +kernel⟩

/-- The state after an opening tag. -/
def ScanState.inBody (s : ScanState) (id : Bytes) : ScanState :=
  s.run (openMark ++ id ++ [quote]) [greater]

/-- An opening tag is two quotes between neutral bytes. -/
theorem ScanState.inBody_spec {s : ScanState} (h : s.Lawful) {id : Bytes} (hid : ValidId id) :
    (s.inBody id).Ready ∧ (s.Open → (s.inBody id).Open) := by
  obtain ⟨b, text, hmark, hb, htext⟩ := openMark_eq
  have hneutral : ∀ c ∈ id, Neutral c := fun c hc => isIdByte_neutral (hid.2.2 c hc)
  obtain ⟨c, more, hcons⟩ := List.exists_cons_of_ne_nil hid.1
  have hc : c ≠ quote := by
    have hmem : c ∈ id := by
      rw [hcons]
      exact List.mem_cons_self
    rintro rfl
    exact hid.quote_notMem hmem
  have htag : openMark ++ id ++ [quote] =
      [less, b] ++ (text ++ ([quote] ++ (c :: more ++ [quote]))) := by
    rw [hmark, hcons]
    simp
  rw [hcons] at hneutral
  rw [inBody, htag, run_append, run_append, run_append, run_append]
  have hready := ready_of_tag h hb (text ++ ([quote] ++ (c :: more ++ [quote])) ++ [greater])
  have hopen := fun hopen : s.Open =>
    open_of_tag hopen hb (text ++ ([quote] ++ (c :: more ++ [quote])) ++ [greater])
  generalize s.run [less, b] _ = s at hready hopen ⊢
  rw [run_neutral hready htext]
  obtain ⟨hready', hopen'⟩ := next_quote hready hc (more ++ [quote] ++ [greater])
  have hfirst : s.run [quote] (c :: more ++ [quote] ++ [greater]) =
      s.next quote (c :: (more ++ [quote] ++ [greater])) := rfl
  rw [hfirst, run_neutral hready' hneutral]
  obtain ⟨hready'', hopen''⟩ := next_quote hready' (b := greater) (by decide) []
  exact ⟨hready'', fun h => hopen'' (hopen' (hopen h))⟩

theorem ScanState.run_openTag {s : ScanState} (h : s.Lawful) {id : Bytes} (hid : ValidId id)
    (rest : Bytes) : s.run (openTag id) rest = s.inBody id := by
  have htag : openTag id = (openMark ++ id ++ [quote]) ++ [greater] := by simp [openTag]
  have hfront : s.run (openMark ++ id ++ [quote]) (greater :: rest) = s.inBody id :=
    s.run_settled stops_greater _ _ _
  rw [htag, run_append, List.cons_append, List.nil_append, hfront]
  exact next_neutral (inBody_spec h hid).1 (by decide) rest

/-- A region of an inert body leaves the state its opening tag left. -/
theorem ScanState.past_inert {s : ScanState} (h : s.Lawful) {r : Region} (hid : ValidId r.id)
    (hbody : Inert r.body) (rest : Bytes) :
    s.past r rest = (s.atOpen r rest).inBody r.id := by
  have hopen : (s.atOpen r rest).Lawful := h.run _ _
  have hready := (inBody_spec hopen hid).1
  rw [past, run_append, run_append, run_openTag hopen hid, hbody.run hready,
    run_neutral hready closeMark_neutral]

theorem ScanState.Lawful.past {s : ScanState} (h : s.Lawful) (r : Region) (rest : Bytes) :
    (s.past r rest).Lawful := (h.run _ _).run _ _

/-- The state at a tag does not depend on what its region holds. -/
theorem ScanState.atOpen_settled (s : ScanState) {r r' : Region} (hgap : r'.gap = r.gap)
    (hid : r'.id = r.id) (rest rest' : Bytes) : s.atOpen r' rest' = s.atOpen r rest := by
  rw [atOpen, atOpen, hgap, hid]
  exact s.run_before_tag _ _ _ _

/-! ### The tags that count -/

/-- For each opening tag of the text, in order, whether it counts. -/
def flagsIn (s : ScanState) : Bytes → Bytes → List Bool
  | [], _ => []
  | b :: text, rest =>
    (if opens (b :: (text ++ rest)) then [s.allowed b (text ++ rest)] else []) ++
      flagsIn (s.next b (text ++ rest)) text rest

/-- For each opening tag of a file, in order, whether it counts. -/
def openFlags (parser : RegionParser) (content : Bytes) : List Bool :=
  flagsIn parser.start content []

theorem flagsIn_append (s : ScanState) (first last rest : Bytes) :
    flagsIn s (first ++ last) rest =
      flagsIn s first (last ++ rest) ++ flagsIn (s.run first (last ++ rest)) last rest := by
  induction first generalizing s with
  | nil => rfl
  | cons b first ih =>
    rw [List.cons_append, flagsIn, flagsIn, ih, ScanState.run_cons, List.append_assoc,
      List.append_assoc]

theorem length_flagsIn (s : ScanState) (text rest : Bytes) :
    (flagsIn s text rest).length = openings text rest := by
  induction text generalizing s with
  | nil => rfl
  | cons b text ih =>
    rw [flagsIn, openings, List.length_append, ih]
    split <;> rfl

theorem quiet_iff {s : ScanState} {text rest : Bytes} :
    Quiet s text rest ↔ flagsIn s text rest = List.replicate (openings text rest) false := by
  induction text generalizing s with
  | nil => exact iff_of_true trivial rfl
  | cons b text ih =>
    rw [Quiet, flagsIn, openings, ih]
    cases hopens : opens (b :: (text ++ rest)) with
    | false => simp
    | true =>
      rw [if_pos rfl, if_pos rfl, Nat.add_comm, List.replicate_succ, List.cons_append,
        List.nil_append, List.cons.injEq]
      simp

theorem flagsIn_of_absent {text rest : Bytes} (h : Absent opens text rest) (s : ScanState) :
    flagsIn s text rest = [] := by
  induction text generalizing s with
  | nil => rfl
  | cons b text ih =>
    rw [flagsIn, h.1, ih h.2]
    rfl

theorem flagsIn_settled (s : ScanState) (gap id x y : Bytes) :
    flagsIn s gap (openTag id ++ x) = flagsIn s gap (openTag id ++ y) := by
  induction gap generalizing s with
  | nil => rfl
  | cons b gap ih =>
    have hallowed : s.allowed b (gap ++ (openTag id ++ x)) = s.allowed b (gap ++ (openTag id ++ y)) :=
      s.allowed_settled stops_less b gap _ _
    have hnext : s.next b (gap ++ (openTag id ++ x)) = s.next b (gap ++ (openTag id ++ y)) :=
      s.next_settled stops_less b gap _ _
    rw [flagsIn, flagsIn, opens_before_tag b gap id x y, hallowed, hnext, ih]

/-- The flags of a file that parses into these regions. -/
def flagsOf : List Region → Bytes → List Bool
  | [], tail => List.replicate (openings tail []) false
  | r :: more, tail =>
    List.replicate (openings r.gap (openTag r.id)) false ++ true :: flagsOf more tail

theorem openings_gap (gap id x : Bytes) :
    openings gap (openTag id ++ x) = openings gap (openTag id) := by
  have h := openings_settled gap id x []
  rwa [List.append_nil] at h

/-- A tag begins with an angle bracket. -/
theorem opens_ne_less {b : UInt8} (h : b ≠ less) (rest : Bytes) : opens (b :: rest) = false := by
  have hne : (less == b) = false := by simpa using Ne.symm h
  have hmark : openMark.isPrefixOf (b :: rest) = false := by
    have heq : openMark = less :: openMark.tail := rfl
    rw [heq, List.isPrefixOf, hne, Bool.false_and]
  simp [opens, openTagAt?, afterMark?, hmark]

theorem absent_of_notMem {text : Bytes} (h : less ∉ text) (rest : Bytes) :
    Absent opens text rest := by
  induction text with
  | nil => trivial
  | cons b text ih =>
    simp only [List.mem_cons, not_or] at h
    exact ⟨opens_ne_less (Ne.symm h.1) _, ih h.2⟩

theorem Inert.less_notMem {body : Bytes} (h : Inert body) : less ∉ body :=
  fun hmem => (h less hmem).2 rfl

theorem Inert.absent_closes {body : Bytes} (h : Inert body) (rest : Bytes) :
    Absent closes body rest := by
  induction body with
  | nil => trivial
  | cons b body ih =>
    refine ⟨?_, ih fun c hc => h c (List.mem_cons_of_mem b hc)⟩
    have hne : (less == b) = false := by simpa using Ne.symm (h b List.mem_cons_self).2
    have heq : closeMark = less :: closeMark.tail := rfl
    rw [closes, heq, List.isPrefixOf, hne, Bool.false_and]

theorem absent_append {p : Bytes → Bool} {first last rest : Bytes}
    (hfirst : Absent p first (last ++ rest)) (hlast : Absent p last rest) :
    Absent p (first ++ last) rest := by
  induction first with
  | nil => exact hlast
  | cons b first ih =>
    refine ⟨?_, ih hfirst.2⟩
    have hb : p (b :: (first ++ (last ++ rest))) = false := hfirst.1
    rwa [← List.append_assoc] at hb

/-- No tag opens in a closing tag. -/
theorem absent_opens_closeMark (rest : Bytes) : Absent opens closeMark rest := by
  have hfirst : opens (closeMark ++ rest) = false := by
    have hmark : openMark.isPrefixOf (closeMark ++ rest) = false := rfl
    simp [opens, openTagAt?, afterMark?, hmark]
  exact ⟨hfirst, absent_of_notMem (by decide) rest⟩

/-- Of an opening tag, only its first byte opens one. -/
theorem absent_opens_tag {id : Bytes} (hid : ValidId id) (rest : Bytes) :
    Absent opens (openTag id).tail rest := by
  refine absent_of_notMem ?_ rest
  have heq : (openTag id).tail = openMark.tail ++ id ++ [quote, greater] := rfl
  rw [heq, List.mem_append, List.mem_append]
  rintro ((hmem | hmem) | hmem)
  · exact absurd hmem (by decide)
  · exact absurd (hid.2.2 less hmem) (by decide)
  · exact absurd hmem (by decide)

/-- **The flags of one region**: those of its gap, then its own, then those after it. -/
theorem flagsIn_weave {s : ScanState} (hs : s.Lawful) {r : Region} (hid : ValidId r.id)
    {more : List Region} {tail : Bytes}
    (hunnested : Absent opens r.body (closeMark ++ weave more tail)) :
    flagsIn s (weave (r :: more) tail) [] =
      flagsIn s r.gap (openTag r.id ++ (r.body ++ (closeMark ++ weave more tail))) ++
        decide (s.atOpen r (weave more tail)).Open ::
          flagsIn (s.past r (weave more tail)) (weave more tail) [] := by
  have hopens : ∀ rest, opens (openTag r.id ++ rest) = true := fun rest => by
    rw [opens, openTagAt?_openTag hid]
    rfl
  have hweave : weave (r :: more) tail =
      r.gap ++ ((openTag r.id ++ (r.body ++ closeMark)) ++ weave more tail) := by
    rw [weave]
    simp only [List.append_assoc]
  have htail : Absent opens ((openTag r.id).tail ++ (r.body ++ closeMark)) (weave more tail) := by
    refine absent_append (absent_opens_tag hid _) (absent_append ?_ (absent_opens_closeMark _))
    exact hunnested
  have hcons : openTag r.id ++ (r.body ++ closeMark) =
      less :: ((openTag r.id).tail ++ (r.body ++ closeMark)) := rfl
  have hatOpen : s.run r.gap (openTag r.id ++ (r.body ++ closeMark) ++ weave more tail) =
      s.atOpen r (weave more tail) := by
    simp only [ScanState.atOpen, List.append_assoc]
  have hpast : s.past r (weave more tail) =
      (s.atOpen r (weave more tail)).run (openTag r.id ++ (r.body ++ closeMark)) (weave more tail) :=
    rfl
  have hfirst := hopens (r.body ++ closeMark ++ weave more tail)
  rw [hweave, flagsIn_append, flagsIn_append]
  simp only [List.append_nil]
  rw [hatOpen, ← hpast, hcons, flagsIn, flagsIn_of_absent htail]
  rw [← List.append_assoc, hcons] at hfirst
  rw [List.cons_append] at hfirst
  have hatOpenLawful : (s.atOpen r (weave more tail)).Lawful := hs.run _ _
  rw [hfirst, if_pos rfl, Bool.eq_iff_iff.mpr
    ((ScanState.allowed_iff_open hatOpenLawful _).trans decide_eq_true_iff.symm)]
  simp only [List.append_assoc, List.cons_append, List.nil_append]
  rfl

/-- In a file that parses the tags of its regions count, and no other. -/
theorem flagsIn_of_scans {s : ScanState} {seen : List Bytes} {regions : List Region}
    {tail : Bytes} (hs : s.Lawful) (h : Scans s seen regions tail) :
    flagsIn s (weave regions tail) [] = flagsOf regions tail := by
  induction regions generalizing s seen with
  | nil => exact quiet_iff.mp h
  | cons r more ih =>
    obtain ⟨hr, hmore⟩ := h
    have hopen := (ScanState.allowed_iff_open (hs.run _ _) _).mp hr.opened
    rw [flagsIn_weave hs hr.valid hr.unnested, quiet_iff.mp hr.quiet, openings_gap,
      ih (hs.past r _) hmore, flagsOf]
    congr 2
    exact decide_eq_true hopen

/-- The same regions around other bodies. -/
def Region.SameAround (r r' : Region) : Prop := r'.gap = r.gap ∧ r'.id = r.id

theorem flagsOf_same {regions regions' : List Region}
    (h : List.Forall₂ Region.SameAround regions regions') (tail : Bytes) :
    flagsOf regions' tail = flagsOf regions tail := by
  induction h with
  | nil => rfl
  | cons hr _ ih => rw [flagsOf, flagsOf, hr.1, hr.2, ih]

/-- What is valid and inert in every region. -/
def AllInert (regions : List Region) : Prop := ∀ r ∈ regions, ValidId r.id ∧ Inert r.body

/-- **Inert bodies do not matter**: the tags that count are the same around others. -/
theorem flagsIn_inert {s : ScanState} (hs : s.Lawful) {regions regions' : List Region}
    (hsame : List.Forall₂ Region.SameAround regions regions') (hinert : AllInert regions)
    (hinert' : AllInert regions') (tail : Bytes) :
    flagsIn s (weave regions' tail) [] = flagsIn s (weave regions tail) [] := by
  induction hsame generalizing s with
  | nil => rfl
  | @cons r r' more more' hr hmore ih =>
    simp only [AllInert, List.mem_cons, forall_eq_or_imp] at hinert hinert'
    have hopen : s.atOpen r' (weave more' tail) = s.atOpen r (weave more tail) :=
      s.atOpen_settled hr.1 hr.2 _ _
    have hpast : s.past r' (weave more' tail) = s.past r (weave more tail) := by
      rw [ScanState.past_inert hs hinert.1.1 hinert.1.2, ScanState.past_inert hs hinert'.1.1 hinert'.1.2,
        hopen, hr.2]
    rw [flagsIn_weave hs hinert.1.1 (absent_of_notMem hinert.1.2.less_notMem _),
      flagsIn_weave hs hinert'.1.1 (absent_of_notMem hinert'.1.2.less_notMem _), hopen, hpast,
      ih (hs.past r _) hinert.2 hinert'.2, hr.1, hr.2]
    congr 1
    exact flagsIn_settled s _ _ _ _

/-- A file of inert bodies parses where its flags are those of its regions. -/
theorem scans_of_flagsIn {s : ScanState} (hs : s.Lawful) {seen : List Bytes}
    {regions : List Region} {tail : Bytes} (hinert : AllInert regions)
    (hnodup : (regions.map Region.id).Nodup) (hfresh : ∀ r ∈ regions, r.id ∉ seen)
    (h : flagsIn s (weave regions tail) [] = flagsOf regions tail) :
    Scans s seen regions tail := by
  induction regions generalizing s seen with
  | nil => exact quiet_iff.mpr h
  | cons r more ih =>
    simp only [AllInert, List.mem_cons, forall_eq_or_imp, List.map_cons, List.nodup_cons,
      List.mem_map, not_exists, not_and] at hinert hnodup hfresh
    obtain ⟨⟨hvalid, hbody⟩, hmore⟩ := hinert
    have hunnested := absent_of_notMem hbody.less_notMem (closeMark ++ weave more tail)
    have hatOpen : (s.atOpen r (weave more tail)).Lawful := hs.run _ _
    rw [flagsIn_weave hs hvalid hunnested, flagsOf] at h
    have hlen : (flagsIn s r.gap (openTag r.id ++ (r.body ++ (closeMark ++ weave more tail)))).length =
        (List.replicate (openings r.gap (openTag r.id)) false).length := by
      rw [length_flagsIn, openings_gap, List.length_replicate]
    obtain ⟨hgap, hrest⟩ := List.append_inj h hlen
    obtain ⟨hopen, hrest⟩ := List.cons.inj hrest
    have hopen := of_decide_eq_true hopen
    obtain ⟨hready, hstays⟩ := ScanState.inBody_spec hatOpen hvalid
    refine ⟨⟨?_, ?_, hvalid, hfresh.1, hbody.absent_closes _, hunnested, ?_⟩, ?_⟩
    · rw [quiet_iff, openings_gap]
      exact hgap
    · exact (ScanState.allowed_iff_open hatOpen _).mpr hopen
    · rw [ScanState.run_append, ScanState.run_openTag hatOpen hvalid, hbody.run hready]
      exact (ScanState.allowed_iff_open
        (by rw [← ScanState.run_openTag hatOpen hvalid []]; exact hatOpen.run _ _) _).mpr
          (hstays hopen)
    · refine ih (hs.past r _) hmore hnodup.2 ?_ hrest
      intro r' hr'
      simp only [List.mem_cons, not_or]
      exact ⟨hnodup.1 r' hr', hfresh.2 r' hr'⟩

/-! ### Formats whose state a region pins -/

/-- The state of a tag that counts, in a format that has only one. -/
def ScanState.home : ScanState → ScanState
  | .markdown _ => .markdown (.prose none 0)
  | .toml s skip => .toml s skip
  | .plainText => .plainText

def ScanState.IsToml : ScanState → Prop
  | .toml _ _ => True
  | _ => False

theorem ScanState.run_home {s : ScanState} (h : ¬ s.IsToml) (text rest : Bytes) :
    ¬ (s.run text rest).IsToml ∧ (s.run text rest).home = s.home := by
  induction text generalizing s with
  | nil => exact ⟨h, rfl⟩
  | cons b text ih =>
    cases s with
    | markdown s => exact ih (s := .markdown _) id
    | toml s skip => exact absurd trivial h
    | plainText => exact ih (s := .plainText) id

theorem ScanState.eq_home {s : ScanState} (h : ¬ s.IsToml) (hready : s.Ready) (hopen : s.Open) :
    s = s.home := by
  match s, hready with
  | .markdown (.fenced _), _ => exact absurd hopen id
  | .markdown (.prose inlineRun 0), _ =>
    have hrun : inlineRun = none := hopen
    rw [hrun]
    rfl
  | .toml s 0, _ => exact absurd trivial h
  | .plainText, _ => rfl

theorem ScanState.run_closeMark {s : ScanState} (h : ¬ s.IsToml) (hopen : s.Open) (rest : Bytes) :
    s.run closeMark rest = s.home := by
  have hcons : closeMark = [less] ++ closeMark.tail := rfl
  have hneutral : ∀ b ∈ closeMark.tail, Neutral b := by decide +kernel
  rw [hcons, run_append, run_cons, run_nil]
  cases s with
  | markdown s =>
    have hfirst : (markdown s).next less ([] ++ (closeMark.tail ++ rest)) = markdown (.prose none 0) :=
      congrArg markdown (MarkdownScan.next_tag hopen _)
    rw [hfirst, run_neutral (by trivial) hneutral]
    rfl
  | toml s skip => exact absurd trivial h
  | plainText => exact run_neutral (s := .plainText) trivial hneutral rest

/-- Where no string runs over a region, the tags that count do not depend on its body. -/
theorem flagsIn_cut {s : ScanState} (hs : s.Lawful) (htoml : ¬ s.IsToml) {seen : List Bytes}
    {regions regions' : List Region} {tail : Bytes} (hscans : Scans s seen regions tail)
    (hsame : List.Forall₂ Region.SameAround regions regions') (hinert : AllInert regions') :
    flagsIn s (weave regions' tail) [] = flagsIn s (weave regions tail) [] := by
  induction hsame generalizing s seen with
  | nil => rfl
  | @cons r r' more more' hr hmore ih =>
    simp only [AllInert, List.mem_cons, forall_eq_or_imp] at hinert
    obtain ⟨hregion, hrest⟩ := hscans
    have hopen : s.atOpen r' (weave more' tail) = s.atOpen r (weave more tail) :=
      s.atOpen_settled hr.1 hr.2 _ _
    have hatOpen : (s.atOpen r (weave more tail)).Lawful := hs.run _ _
    obtain ⟨hatToml, hatHome⟩ : ¬ (s.atOpen r (weave more tail)).IsToml ∧
        (s.atOpen r (weave more tail)).home = s.home := ScanState.run_home htoml _ _
    have hcount := (ScanState.allowed_iff_open hatOpen _).mp hregion.opened
    -- both bodies end in the one state a closing tag that counts leaves
    have hbody : s.past r (weave more tail) = s.home := by
      have hclosed := (ScanState.allowed_iff_open (hatOpen.run _ _) _).mp hregion.closed
      obtain ⟨hbodyToml, hbodyHome⟩ := ScanState.run_home hatToml (openTag r.id ++ r.body)
        (closeMark ++ weave more tail)
      rw [ScanState.past, ← List.append_assoc, ScanState.run_append,
        ScanState.run_closeMark hbodyToml hclosed, hbodyHome, hatHome]
    have hcut : s.past r' (weave more' tail) = s.home := by
      obtain ⟨hready, hstays⟩ := ScanState.inBody_spec hatOpen hregion.valid
      obtain ⟨htagToml, htagHome⟩ : ¬ ((s.atOpen r (weave more tail)).inBody r.id).IsToml ∧
          ((s.atOpen r (weave more tail)).inBody r.id).home = (s.atOpen r (weave more tail)).home :=
        ScanState.run_home hatToml _ _
      rw [ScanState.past_inert hs hinert.1.1 hinert.1.2, hopen, hr.2,
        ScanState.eq_home htagToml hready (hstays hcount)]
      exact htagHome.trans hatHome
    have htomlPast : ¬ (s.past r (weave more tail)).IsToml :=
      (ScanState.run_home hatToml _ _).1
    rw [flagsIn_weave hs hregion.valid hregion.unnested,
      flagsIn_weave hs hinert.1.1 (absent_of_notMem hinert.1.2.less_notMem _), hopen, hcut, ← hbody,
      ih (hs.past r _) htomlPast hrest hinert.2, hr.1, hr.2]
    congr 1
    exact flagsIn_settled s _ _ _ _

end Softfig.LayerB
