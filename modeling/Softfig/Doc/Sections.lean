import Softfig.Doc.Managed
import Softfig.Store.Hash

/-!
Markdown sections: headings outside fences, the span of a section, and the edits
that replace or extend a section's text.

A section runs from its heading to the next heading of the same or a higher level.
An edit refuses a result that changes a managed region; the version of a section is
the hash of its lines.
-/

namespace Softfig.Doc

open Softfig.Queue (isWhitespace trimStart trim)
open Softfig.Store (Bytes Hash utf8)

inductive SectionError where
  | notFound
  | ambiguous
  | alreadyExists
  | emptyHeading
  | lastSection
  | managedRegion
  deriving DecidableEq, Repr

structure Heading where
  line : Nat
  level : Nat
  text : Text
  deriving DecidableEq, Repr

def trimEnd (chars : Text) : Text := (trimStart chars.reverse).reverse

def trimBreaks (chars : Text) : Text := chars.dropWhile (· = '\n')

def isBlankLine (line : Text) : Bool := line.all isWhitespace

/-! ### Headings -/

def hashCount (chars : Text) : Nat := (chars.takeWhile (· = '#')).length

/-- The level and the text a caller addresses a heading by. -/
def parseHeadingArg (arg : Text) : Option Nat × Text :=
  let trimmed := trim arg
  let hashes := hashCount trimmed
  (if 0 < hashes then some (min hashes 6) else none, trim (trimmed.drop hashes))

/-- An ATX heading line: one to six `#`, then a space or the end. -/
def parseHeadingLine (line : Text) : Option (Nat × Text) :=
  let t := trimStart line
  let hashes := hashCount t
  if hashes = 0 || 6 < hashes then none
  else
    match t.drop hashes with
    | [] => some (hashes, [])
    | c :: rest => if c = ' ' then some (hashes, trim (c :: rest)) else none

/-- The headings of lines from line `i` on, outside fences. -/
def headingsFrom : Bool → Nat → List Text → List Heading
  | _, _, [] => []
  | inFence, i, l :: ls =>
    if isFence l then headingsFrom (!inFence) (i + 1) ls
    else if inFence then headingsFrom inFence (i + 1) ls
    else
      match parseHeadingLine l with
      | some (level, text) => ⟨i, level, text⟩ :: headingsFrom inFence (i + 1) ls
      | none => headingsFrom inFence (i + 1) ls

def headings (ls : List Text) : List Heading := headingsFrom false 0 ls

def findUnique (hs : List Heading) (want : Text) : Except SectionError Heading :=
  match hs.filter fun h => h.text = want with
  | [] => .error .notFound
  | [h] => .ok h
  | _ :: _ :: _ => .error .ambiguous

/-- The line of the next heading of the same or a higher level, or the end. -/
def spanEnd (lineCount : Nat) (hs : List Heading) (target : Heading) : Nat :=
  ((hs.find? fun h => target.line < h.line && h.level ≤ target.level).map (·.line)).getD lineCount

def bodyRange (lineCount : Nat) (hs : List Heading) (target : Heading) : Nat × Nat :=
  (target.line + 1, spanEnd lineCount hs target)

/-- The end of a section's own text: its first subsection, or the end of its span. -/
def ownBodyEnd (hs : List Heading) (target : Heading) (stop : Nat) : Nat :=
  ((hs.find? fun h => target.line < h.line).map fun h => min h.line stop).getD stop

/-! ### Editing -/

/-- One blank line, the trimmed body, one blank line. -/
def bodyBlock (body : Text) : List Text := [[]] ++ lines (trimEnd (trimBreaks body)) ++ [[]]

def isThematicBreak (line : Text) : Bool :=
  let t := line.filter fun c => !isWhitespace c
  3 ≤ t.length && (t.all (· = '-') || t.all (· = '*') || t.all (· = '_'))

/-- The last non-blank line of `[start, stop)`, where it is a separator. -/
def trailingRule (ls : List Text) (start stop : Nat) : Option Nat :=
  match (List.range stop).reverse.find? fun i => start ≤ i && !isBlankLine (ls.getD i []) with
  | none => none
  | some last =>
    if isThematicBreak (ls.getD last []) && (last = 0 || isBlankLine (ls.getD (last - 1) [])) then
      some last
    else none

/-- A body without a first line that repeats the addressed heading. -/
def stripRepeatedHeading (body want : Text) : Text :=
  let trimmed := body.dropWhile fun c => c = '\n' || c = '\r'
  let first := trimmed.takeWhile (· ≠ '\n')
  match parseHeadingLine first with
  | some (_, text) => if text = want then trimmed.drop first.length else body
  | none => body

def keepRegions (before after : Text) : Except SectionError Text :=
  if changedRegions before after = [] then .ok after else .error .managedRegion

/-- The section an argument addresses. -/
def addressed (ls : List Text) (arg : Text) : Except SectionError Heading :=
  let want := (parseHeadingArg arg).2
  if want = [] then .error .emptyHeading else findUnique (headings ls) want

/-- What a body replaces: a body without headings the section's own text, one with
headings the whole span. -/
def editEnd (ls : List Text) (target : Heading) (body : Text) : Nat :=
  let stop := spanEnd ls.length (headings ls) target
  if headings (lines body) = [] then ownBodyEnd (headings ls) target stop else stop

/-- The regions of the replaced window that the body does not bring again. -/
def keptSpans (ls : List Text) (body : Text) (start stop : Nat) : List Span :=
  (spansOf ls).filter fun s =>
    start ≤ s.openLine && s.closeLine < stop && !hasRegion body s.tag

/-- The body with the kept regions after it. -/
def withRegions (ls : List Text) (text : Text) (spans : List Span) : Text :=
  spans.foldl (fun text s =>
    (if text = [] then text else text ++ ['\n', '\n']) ++
      join (slice ls s.openLine (s.closeLine + 1))) text

/-- The text put into the window: the body, the kept regions and a separator that
closed the replaced text, where the body brings none of its own. -/
def editText (ls : List Text) (body : Text) (start stop : Nat) : Text :=
  let text := withRegions ls (trimEnd (trimBreaks body)) (keptSpans ls body start stop)
  if (trailingRule (lines body) 0 (lines body).length).isSome then text
  else
    match trailingRule ls start stop with
    | none => text
    | some rule => text ++ ['\n', '\n'] ++ trim (ls.getD rule [])

def straddles (ls : List Text) (start stop : Nat) : Bool :=
  (spansOf ls).any fun s =>
    (s.openLine < start && start ≤ s.closeLine) || (s.openLine < stop && stop ≤ s.closeLine)

def editSection (content arg body : Text) : Except SectionError Text := do
  let ls := lines content
  let target ← addressed ls arg
  let body := stripRepeatedHeading body (parseHeadingArg arg).2
  let start := target.line + 1
  let stop := editEnd ls target body
  if straddles ls start stop then .error .managedRegion
  else
    keepRegions content
      (join (ls.take start ++ bodyBlock (editText ls body start stop) ++ ls.drop stop))

def trimBreaksBoth (text : Text) : Text := (trimBreaks (trimBreaks text).reverse).reverse

def inRegion (ls : List Text) (i : Nat) : Bool :=
  (spansOf ls).any fun s => s.openLine ≤ i && i ≤ s.closeLine

/-- The last line of `[start, stop)` that is neither blank, nor of a region, nor the
closing separator. -/
def lastContent (ls : List Text) (start stop : Nat) : Option Nat :=
  (List.range stop).reverse.find? fun i =>
    start ≤ i && !isBlankLine (ls.getD i []) && !inRegion ls i && trailingRule ls start stop ≠ some i

def hasBoundary (ls : List Text) (start stop : Nat) : Bool :=
  (trailingRule ls start stop).isSome ||
    (spansOf ls).any fun s => start ≤ s.openLine && s.openLine < stop

def appendToSection (content arg text : Text) : Except SectionError Text := do
  let ls := lines content
  let target ← addressed ls arg
  let start := target.line + 1
  let stop := spanEnd ls.length (headings ls) target
  let text := trimBreaksBoth text
  keepRegions content <| join <|
    match lastContent ls start stop with
    | some i => ls.take (i + 1) ++ lines text ++ ls.drop (i + 1)
    | none =>
      if hasBoundary ls start stop then ls.take start ++ [[]] ++ lines text ++ ls.drop start
      else ls.take start ++ bodyBlock text ++ ls.drop stop

/-! ### Versions -/

def contentVersion (hashOf : Bytes → Hash) (s : Text) : String :=
  (hashOf (utf8 (String.ofList s))).toHex

def sectionSlice (ls : List Text) (hs : List Heading) (target : Heading) : Text :=
  join (slice ls target.line (spanEnd ls.length hs target))

def sectionVersion (hashOf : Bytes → Hash) (content arg : Text) : Option String :=
  match addressed (lines content) arg with
  | .ok target =>
    some (contentVersion hashOf (sectionSlice (lines content) (headings (lines content)) target))
  | .error _ => none

end Softfig.Doc
