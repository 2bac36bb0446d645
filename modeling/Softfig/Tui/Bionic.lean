import Softfig.Doc.Managed
import Softfig.Lib.Mealy

/-!
The two line transforms of the editor: the raw markdown view and bionic reading.

A styled line is the list of its spans. Which characters are alphanumeric is a
parameter, and a bold ratio is the function `bold_len` rounds: what a word of a given
length times the ratio comes to.

- `text_markdownLine`, `text_bionicLine`: a styled line shows the line, character for character;
- `stateAfter_markdownLine`: the fence state down the file is the parity of its fence markers.
-/

namespace Softfig.Tui

open Softfig.Queue (isWhitespace trimStart)
open Softfig.Doc (Text fenceAfter)

inductive Color where
  | lightMagenta
  | yellow
  | lightCyan
  | lightGreen
  | lightYellow
  | darkGray
  | green
  | cyan
deriving DecidableEq, Repr

structure Style where
  fg : Option Color := none
  bold : Bool := false
deriving DecidableEq, Repr

structure Span where
  style : Style
  text : Text
deriving DecidableEq, Repr

abbrev Line := List Span

def raw (text : Text) : Span := ⟨{}, text⟩

/-- The characters a line shows. -/
def shown (line : Line) : Text := line.flatMap Span.text

def boldStyle : Style := { bold := true }

def acronymStyle : Style := { fg := some .lightMagenta }

def codeStyle : Style := { fg := some .yellow }

def headingStyle : Nat → Style
  | 1 => { fg := some .lightCyan, bold := true }
  | 2 => { fg := some .lightGreen, bold := true }
  | 3 => { fg := some .lightYellow, bold := true }
  | _ => { fg := some .lightMagenta, bold := true }

/-! ### Inline code -/

/-- A segment with no backtick in it ends; an empty one leaves no span. -/
def flushSegment (plain : Text → Line) (seg : Text) : Line :=
  if seg.isEmpty then [] else plain seg

/-- Backtick spans are code, what stands between them goes to `plain`, and a backtick that is not
closed makes the rest of the line code. -/
def backtickSpans (plain : Text → Line) : Text → Bool → Text → Line
  | seg, inCode, [] => flushSegment (if inCode then fun seg => [⟨codeStyle, seg⟩] else plain) seg
  | seg, inCode, c :: rest =>
    if c = '`' then
      if inCode then ⟨codeStyle, seg ++ ['`']⟩ :: backtickSpans plain [] false rest
      else flushSegment plain seg ++ backtickSpans plain ['`'] true rest
    else backtickSpans plain (seg ++ [c]) inCode rest

def inlineCodeSpans (text : Text) : Line := backtickSpans (fun seg => [raw seg]) [] false text

def fenceMarker (line : Text) : Bool :=
  "```".toList.isPrefixOf (trimStart line) || "~~~".toList.isPrefixOf (trimStart line)

/-! ### The raw view -/

/-- The characters of a bullet and the blank behind it. -/
def bulletMark : Text → Option Nat
  | c :: ' ' :: _ => if c = '-' ∨ c = '*' ∨ c = '+' then some 2 else none
  | _ => none

def orderedMark (trimmed : Text) : Option Nat :=
  let digits := (trimmed.takeWhile Char.isDigit).length
  if digits > 0 && ". ".toList.isPrefixOf (trimmed.drop digits) then some (digits + 2) else none

/-- One line of raw source and the fence state behind it. -/
def markdownLine (line : Text) (inFence : Bool) : Line × Bool :=
  if fenceMarker line then ([⟨codeStyle, line⟩], !inFence)
  else if inFence then ([⟨codeStyle, line⟩], inFence)
  else
    let trimmed := trimStart line
    let hashes := (trimmed.takeWhile (· == '#')).length
    if 1 ≤ hashes ∧ hashes ≤ 6 ∧ " ".toList.isPrefixOf (trimmed.drop hashes) then
      ([⟨headingStyle hashes, line⟩], inFence)
    else if trimmed = "---".toList ∨ trimmed = "***".toList ∨ trimmed = "___".toList then
      ([⟨{ fg := some .darkGray }, line⟩], inFence)
    else if ">".toList.isPrefixOf trimmed then
      ([⟨{ fg := some .green }, line⟩], inFence)
    else
      match (bulletMark trimmed).or (orderedMark trimmed) with
      | some n =>
        let lead := line.take (line.length - trimmed.length)
        (flushSegment (fun seg => [raw seg]) lead ++
          ⟨{ fg := some .cyan }, trimmed.take n⟩ :: inlineCodeSpans (trimmed.drop n), inFence)
      | none => (inlineCodeSpans line, inFence)

def renderMarkdownLines (lines : List Text) : List Line :=
  (Mealy.scan markdownLine false lines).map Prod.fst

/-! ### Bionic reading -/

section bionic

variable (alphanumeric : Char → Bool)

abbrev Ratio := Nat → Nat

def boldLen (wordChars : Nat) (ratio : Ratio) : Nat :=
  if wordChars = 0 then 0 else min (max (ratio wordChars) 1) wordChars

def splitWord (word : Text) (ratio : Ratio) : Text × Text :=
  (word.take (boldLen word.length ratio), word.drop (boldLen word.length ratio))

def falsePositives : List Text :=
  ["I".toList, "A".toList, "OK".toList, "AM".toList, "PM".toList, "US".toList, "IT".toList,
    "TV".toList, "ID".toList, "OR".toList, "AN".toList]

def isAcronym (word : Text) : Bool :=
  2 ≤ word.length && !falsePositives.contains word && word.all Char.isUpper

def isBionicWordChar (c : Char) : Bool := alphanumeric c || c == '\'' || c == '-'

def flushWord (word : Text) (ratio : Ratio) : Line :=
  if word.isEmpty then []
  else if isAcronym word then [⟨acronymStyle, word⟩]
  else flushSegment (fun bold => [⟨boldStyle, bold⟩]) (splitWord word ratio).1 ++
    flushSegment (fun rest => [raw rest]) (splitWord word ratio).2

/-- The spans of a segment, behind a word and a separator read so far. -/
def bionicSpans (ratio : Ratio) : Text → Text → Text → Line
  | word, sep, [] => flushSegment (fun sep => [raw sep]) sep ++ flushWord word ratio
  | word, sep, c :: rest =>
    if isBionicWordChar alphanumeric c then
      flushSegment (fun sep => [raw sep]) sep ++ bionicSpans ratio (word ++ [c]) [] rest
    else flushWord word ratio ++ bionicSpans ratio [] (sep ++ [c]) rest

def bionicText (ratio : Ratio) (text : Text) : Line := bionicSpans alphanumeric ratio [] [] text

def bionicLine (ratio : Ratio) (line : Text) (inFence : Bool) : Line :=
  if inFence then [⟨codeStyle, line⟩]
  else backtickSpans (bionicText alphanumeric ratio) [] false line

/-- One line of the bionic view and the fence state behind it. -/
def bionicStep (ratio : Ratio) (line : Text) (inFence : Bool) : Line × Bool :=
  if fenceMarker line then ([⟨codeStyle, line⟩], !inFence)
  else (bionicLine alphanumeric ratio line inFence, inFence)

def renderBionicLines (ratio : Ratio) (lines : List Text) : List Line :=
  (Mealy.scan (bionicStep alphanumeric ratio) false lines).map Prod.fst

end bionic

/-! ### A styled line shows the line -/

@[simp]
theorem shown_nil : shown [] = [] := rfl

@[simp]
theorem shown_cons (span : Span) (line : Line) : shown (span :: line) = span.text ++ shown line :=
  List.flatMap_cons

@[simp]
theorem shown_append (a b : Line) : shown (a ++ b) = shown a ++ shown b := List.flatMap_append

theorem shown_lone (style : Style) (seg : Text) : shown [⟨style, seg⟩] = seg :=
  List.append_nil seg

theorem shown_raw (seg : Text) : shown [raw seg] = seg := List.append_nil seg

theorem shown_flushSegment {plain : Text → Line} (hplain : ∀ seg, shown (plain seg) = seg)
    (seg : Text) : shown (flushSegment plain seg) = seg := by
  cases seg with
  | nil => rfl
  | cons c seg => exact hplain _

theorem shown_backtickSpans {plain : Text → Line} (hplain : ∀ seg, shown (plain seg) = seg)
    (rest seg : Text) (inCode : Bool) :
    shown (backtickSpans plain seg inCode rest) = seg ++ rest := by
  induction rest generalizing seg inCode with
  | nil =>
    rw [backtickSpans, List.append_nil]
    refine shown_flushSegment (fun seg => ?_) seg
    cases inCode with
    | false => exact hplain seg
    | true => exact shown_lone codeStyle seg
  | cons c rest ih =>
    rw [backtickSpans]
    by_cases hc : c = '`'
    · subst hc
      cases inCode with
      | true => simp [ih]
      | false => simp [ih, shown_flushSegment hplain]
    · simp [hc, ih]

theorem shown_inlineCodeSpans (text : Text) : shown (inlineCodeSpans text) = text :=
  shown_backtickSpans shown_raw text [] false

/-- A markdown line is shown as it is. -/
theorem text_markdownLine (line : Text) (inFence : Bool) :
    shown (markdownLine line inFence).1 = line := by
  have hlone (style : Style) : shown [⟨style, line⟩] = line := shown_lone style line
  unfold markdownLine
  split
  · exact hlone _
  split
  · exact hlone _
  dsimp only
  split
  · exact hlone _
  split
  · exact hlone _
  split
  · exact hlone _
  split
  · have hsuffix : trimStart line <:+ line := List.dropWhile_suffix _
    obtain ⟨lead, hlead⟩ := hsuffix
    have hlength : line.length - (trimStart line).length = lead.length := by
      rw [← congrArg List.length hlead, List.length_append, Nat.add_sub_cancel]
    rw [shown_append, shown_flushSegment shown_raw, shown_cons, shown_inlineCodeSpans,
      List.take_append_drop, hlength]
    conv_rhs => rw [← hlead]
    congr 1
    rw [← hlead]
    exact List.take_left
  · exact shown_inlineCodeSpans line

theorem shown_flushWord (word : Text) (ratio : Ratio) : shown (flushWord word ratio) = word := by
  unfold flushWord
  split
  · next h =>
    rw [List.isEmpty_iff.mp h]
    rfl
  split
  · exact shown_lone acronymStyle word
  · rw [shown_append, shown_flushSegment (shown_lone boldStyle),
      shown_flushSegment shown_raw]
    exact List.take_append_drop _ _

/-- One of the word and the separator is empty, so their order does not matter. -/
theorem shown_bionicSpans (alphanumeric : Char → Bool) (ratio : Ratio) (rest word sep : Text)
    (h : word = [] ∨ sep = []) :
    shown (bionicSpans alphanumeric ratio word sep rest) = word ++ sep ++ rest := by
  have hsep (sep : Text) : shown (flushSegment (fun sep => [raw sep]) sep) = sep :=
    shown_flushSegment shown_raw sep
  induction rest generalizing word sep with
  | nil =>
    rw [bionicSpans, shown_append, hsep, shown_flushWord, List.append_nil]
    rcases h with rfl | rfl
    · rw [List.append_nil, List.nil_append]
    · rw [List.append_nil, List.nil_append]
  | cons c rest ih =>
    rw [bionicSpans]
    split
    · rw [shown_append, hsep, ih _ _ (.inr rfl)]
      rcases h with rfl | rfl
      · simp
      · simp
    · rw [shown_append, shown_flushWord, ih _ _ (.inl rfl)]
      simp

/-- A line in the bionic view is shown as it is. -/
theorem text_bionicLine (alphanumeric : Char → Bool) (ratio : Ratio) (line : Text)
    (inFence : Bool) : shown (bionicLine alphanumeric ratio line inFence) = line := by
  unfold bionicLine
  split
  · exact shown_lone codeStyle line
  · exact shown_backtickSpans
      (fun seg => shown_bionicSpans alphanumeric ratio seg [] [] (.inl rfl)) line [] false

theorem text_bionicStep (alphanumeric : Char → Bool) (ratio : Ratio) (line : Text)
    (inFence : Bool) : shown (bionicStep alphanumeric ratio line inFence).1 = line := by
  unfold bionicStep
  split
  · exact shown_lone codeStyle line
  · exact text_bionicLine alphanumeric ratio line inFence

/-- Only a fence marker turns the state. -/
theorem markdownLine_snd (line : Text) (inFence : Bool) :
    (markdownLine line inFence).2 = if fenceMarker line then !inFence else inFence := by
  unfold markdownLine
  split
  · rfl
  split
  · rfl
  dsimp only
  split
  · rfl
  split
  · rfl
  split
  · rfl
  split
  · rfl
  · rfl

theorem stateAfter_markdownLine (inFence : Bool) (lines : List Text) :
    Mealy.stateAfter markdownLine inFence lines = fenceAfter inFence lines := by
  induction lines generalizing inFence with
  | nil => rfl
  | cons line lines ih =>
    rw [Mealy.stateAfter_cons, ih, markdownLine_snd]
    rfl

end Softfig.Tui
