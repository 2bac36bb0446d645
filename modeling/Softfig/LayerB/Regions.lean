import Mathlib.Data.List.Sort
import Softfig.Lib.Base64
import Softfig.Store.Hash

/-!
Inline vault regions: the scan of a file for `<vault id="…">…</vault>`, the read
view that hides the ciphertext and the write path that seals the bodies.

A file is its bytes. What a byte of the file means depends on the format, and is
followed by one state that moves a byte at a time with the bytes after it in view
(`ScanState`); an opening tag counts where the state allows its first byte.
-/

namespace Softfig.LayerB

open Softfig.Store (Bytes)
open Softfig.Lib

/-! ### Bytes -/

abbrev newline : UInt8 := 10
abbrev space : UInt8 := 32
abbrev quote : UInt8 := 34
abbrev hashSign : UInt8 := 35
abbrev apostrophe : UInt8 := 39
abbrev less : UInt8 := 60
abbrev greater : UInt8 := 62
abbrev backslash : UInt8 := 92
abbrev backtick : UInt8 := 96

/-- The bytes of an ASCII text. -/
def ascii (s : String) : Bytes := s.toList.map fun c => UInt8.ofNat c.toNat

/-- What is left of a UTF-8 character. -/
inductive Utf8Scan where
  | start
  /-- this many bytes `80..BF` and one more -/
  | tail (more : Nat)
  | afterE0
  | afterED
  | afterF0
  | afterF4
  deriving DecidableEq

def Utf8Scan.next : Utf8Scan → UInt8 → Option Utf8Scan
  | .start, b =>
    if b < 0x80 then some .start
    else if 0xC2 ≤ b ∧ b ≤ 0xDF then some (.tail 0)
    else if b = 0xE0 then some .afterE0
    else if b = 0xED then some .afterED
    else if 0xE1 ≤ b ∧ b ≤ 0xEF then some (.tail 1)
    else if b = 0xF0 then some .afterF0
    else if 0xF1 ≤ b ∧ b ≤ 0xF3 then some (.tail 2)
    else if b = 0xF4 then some .afterF4
    else none
  | .tail 0, b => if 0x80 ≤ b ∧ b ≤ 0xBF then some .start else none
  | .tail (more + 1), b => if 0x80 ≤ b ∧ b ≤ 0xBF then some (.tail more) else none
  | .afterE0, b => if 0xA0 ≤ b ∧ b ≤ 0xBF then some (.tail 0) else none
  | .afterED, b => if 0x80 ≤ b ∧ b ≤ 0x9F then some (.tail 0) else none
  | .afterF0, b => if 0x90 ≤ b ∧ b ≤ 0xBF then some (.tail 1) else none
  | .afterF4, b => if 0x80 ≤ b ∧ b ≤ 0x8F then some (.tail 1) else none

def isUtf8From : Utf8Scan → Bytes → Bool
  | s, [] => s = .start
  | s, b :: rest =>
    match s.next b with
    | none => false
    | some s => isUtf8From s rest

/-- `std::str::from_utf8(content).is_ok()` -/
def isUtf8 (content : Bytes) : Bool := isUtf8From .start content

structure ByteRange where
  start : Nat
  stop : Nat
  deriving DecidableEq

/-- `content[range]` -/
def ByteRange.slice (range : ByteRange) (content : Bytes) : Bytes :=
  (content.take range.stop).drop range.start

/-! ### Markers -/

/-- The opening tag up to its id. -/
def openMark : Bytes := ascii "<vault id=\""

def closeMark : Bytes := ascii "</vault>"

def encryptedPlaceholder : Bytes := ascii "[encrypted]"

def regionIdMax : Nat := 64

/-- An opening tag: its id, and the number of its bytes. -/
structure OpenTag where
  id : Bytes
  length : Nat
  deriving DecidableEq

/-- What follows the mark, if the content begins with it. -/
def afterMark? (mark content : Bytes) : Option Bytes :=
  if mark.isPrefixOf content then some (content.drop mark.length) else none

/-- The opening tag the content begins with. -/
def openTagAt? (content : Bytes) : Option OpenTag :=
  match afterMark? openMark content with
  | none => none
  | some attr =>
    let id := attr.takeWhile (· ≠ quote)
    match attr.drop id.length with
    | _ :: after :: _ =>
      if after = greater ∧ isUtf8 id = true then some ⟨id, openMark.length + id.length + 2⟩
      else none
    | _ => none

/-- The next opening tag, masked or not, and where it opens. -/
def nextOpenTag : Bytes → Option (Nat × OpenTag)
  | [] => none
  | b :: rest =>
    match openTagAt? (b :: rest) with
    | some tag => some (0, tag)
    | none => (nextOpenTag rest).map fun found => (found.1 + 1, found.2)

/-- Where the next closing tag begins. -/
def nextCloseTag : Bytes → Option Nat
  | [] => none
  | b :: rest =>
    if closeMark.isPrefixOf (b :: rest) then some 0 else (nextCloseTag rest).map (· + 1)

inductive RegionParseError where
  | duplicateId (id : Bytes)
  | nested (id : Bytes)
  | missingClosingTag (id : Bytes)
  | invalidId (id : Bytes)
  | emptyId
  | placeholderForUnknownId (id : Bytes)
  deriving DecidableEq

/-- An ASCII letter or digit, `_` or `-`. -/
def isIdByte (b : UInt8) : Bool :=
  (48 ≤ b && b ≤ 57) || (65 ≤ b && b ≤ 90) || (97 ≤ b && b ≤ 122) || b == 95 || b == 45

def validateId (id : Bytes) : Except RegionParseError Unit :=
  if id = [] then .error .emptyId
  else if regionIdMax < id.length then .error (.invalidId id)
  else if id.all isIdByte then .ok ()
  else .error (.invalidId id)

/-! ### Masks -/

inductive RegionParser where
  | markdown
  | toml
  | plainText
  deriving DecidableEq

/-- Where a byte of a markdown file stands. -/
inductive MarkdownScan where
  /-- the first byte of a line, and whether a fence is open before it -/
  | lineStart (inFence : Bool)
  /-- a fence line or a line inside a fence, and whether a fence is open after it -/
  | fenced (inFence : Bool)
  /-- the backticks that opened the code span, and the backticks just before this byte -/
  | prose (inlineRun : Option Nat) (run : Nat)
  deriving DecidableEq

/-- What a whole run of backticks does to the code span. -/
def settleRun (inlineRun : Option Nat) (run : Nat) : Option Nat :=
  if run = 0 then inlineRun
  else
    match inlineRun with
    | none => some run
    | some opened => if opened = run then none else some opened

/-- A line that begins, after spaces, with three backticks is a fence line. -/
def MarkdownScan.enter (content : Bytes) : MarkdownScan → MarkdownScan
  | .lineStart inFence =>
    let toggles := (ascii "```").isPrefixOf (content.dropWhile (· == space))
    if inFence || toggles then .fenced (inFence != toggles) else .prose none 0
  | s => s

def MarkdownScan.allowed (s : MarkdownScan) (b : UInt8) (rest : Bytes) : Bool :=
  match s.enter (b :: rest) with
  | .prose inlineRun run =>
    if b = newline then true
    else if b = backtick then false
    else (settleRun inlineRun run).isNone
  | _ => false

def MarkdownScan.next (s : MarkdownScan) (b : UInt8) (rest : Bytes) : MarkdownScan :=
  match s.enter (b :: rest) with
  | .fenced inFence => if b = newline then .lineStart inFence else .fenced inFence
  | .prose inlineRun run =>
    if b = newline then .lineStart false
    else if b = backtick then .prose inlineRun (run + 1)
    else .prose (settleRun inlineRun run) 0
  | s => s

inductive TomlScan where
  | normal
  | comment
  | basic
  | literal
  | mlBasic
  | mlLiteral
  deriving DecidableEq

/-- The state after the byte, and how many bytes after it are passed over. -/
def TomlScan.step (s : TomlScan) (b : UInt8) (rest : Bytes) : TomlScan × Nat :=
  match s with
  | .normal =>
    if b = hashSign then (.comment, 0)
    else if b = quote then
      if (ascii "\"\"").isPrefixOf rest then (.mlBasic, 2) else (.basic, 0)
    else if b = apostrophe then
      if (ascii "''").isPrefixOf rest then (.mlLiteral, 2) else (.literal, 0)
    else (.normal, 0)
  | .comment => if b = newline then (.normal, 0) else (.comment, 0)
  | .basic =>
    if b = backslash then (.basic, 1)
    else if b = quote ∨ b = newline then (.normal, 0)
    else (.basic, 0)
  | .literal => if b = apostrophe ∨ b = newline then (.normal, 0) else (.literal, 0)
  | .mlBasic =>
    if b = backslash then (.mlBasic, 1)
    else if b = quote ∧ (ascii "\"\"").isPrefixOf rest then (.normal, 2)
    else (.mlBasic, 0)
  | .mlLiteral =>
    if b = apostrophe ∧ (ascii "''").isPrefixOf rest then (.normal, 2) else (.mlLiteral, 0)

/-- Only the bytes of a comment are masked, its `#` included. -/
def TomlScan.allowed (s : TomlScan) (b : UInt8) : Bool :=
  match s with
  | .normal => b ≠ hashSign
  | .comment => b = newline
  | _ => true

inductive ScanState where
  | markdown (s : MarkdownScan)
  /-- `skip` bytes are passed over before the state reads again -/
  | toml (s : TomlScan) (skip : Nat)
  | plainText
  deriving DecidableEq

def RegionParser.start : RegionParser → ScanState
  | .markdown => .markdown (.lineStart false)
  | .toml => .toml .normal 0
  | .plainText => .plainText

/-- Whether a tag may begin at the byte `b`, which `rest` follows. -/
def ScanState.allowed (s : ScanState) (b : UInt8) (rest : Bytes) : Bool :=
  match s with
  | .markdown s => s.allowed b rest
  | .toml s 0 => s.allowed b
  | .toml _ (_ + 1) => true
  | .plainText => true

def ScanState.next (s : ScanState) (b : UInt8) (rest : Bytes) : ScanState :=
  match s with
  | .markdown s => .markdown (s.next b rest)
  | .toml s 0 => .toml (s.step b rest).1 (s.step b rest).2
  | .toml s (skip + 1) => .toml s skip
  | .plainText => .plainText

/-- The mask of a file whose first byte is read in the state `s`. -/
def mask : ScanState → Bytes → List Bool
  | _, [] => []
  | s, b :: rest => s.allowed b rest :: mask (s.next b rest) rest

/-! ### Regions -/

/-- The cipher of a session: a key for each path and id, and what it seals it opens. -/
structure RegionCipher where
  encrypt : String → Bytes → Bytes → Option Bytes
  decrypt : String → Bytes → Bytes → Option Bytes
  decrypt_encrypt : ∀ path id plain sealed,
    encrypt path id plain = some sealed → decrypt path id sealed = some plain

inductive RegionKind where
  | ciphertext
  | plaintext
  deriving DecidableEq

structure RegionSpan where
  id : Bytes
  body : ByteRange
  kind : RegionKind
  deriving DecidableEq

/-- The checks on an opening tag that counts, `after` being the content after it: how many
bytes its body has. -/
def closeRegion (seen : List Bytes) (tag : OpenTag) (after : Bytes) (allow : List Bool) :
    Except RegionParseError Nat :=
  match validateId tag.id with
  | .error e => .error e
  | .ok () =>
    if tag.id ∈ seen then .error (.duplicateId tag.id)
    else
      match nextCloseTag after with
      | none => .error (.missingClosingTag tag.id)
      | some close =>
        if allow.getD close false = false then .error (.missingClosingTag tag.id)
        else
          match nextOpenTag after with
          | some (inner, innerTag) =>
            if inner < close then .error (.nested innerTag.id) else .ok close
          | none => .ok close

section Session

variable (cipher : RegionCipher) (path : String)

def classifyBody (body id : Bytes) : RegionKind :=
  if body = encryptedPlaceholder then .plaintext
  else
    match Base64.decode body with
    | none => .plaintext
    | some bytes => if (cipher.decrypt path id bytes).isSome then .ciphertext else .plaintext

/-- `scan_regions`, from byte `pos` on, of which the first `skip` belong to the region
read last. A byte where no tag opens, or where a masked one does, is passed over. -/
def scanRegions (seen : List Bytes) (pos : Nat) :
    Nat → Bytes → List Bool → Except RegionParseError (List RegionSpan)
  | _, [], _ => .ok []
  | skip + 1, _ :: rest, allow => scanRegions seen (pos + 1) skip rest allow.tail
  | 0, b :: rest, allow =>
    match openTagAt? (b :: rest) with
    | none => scanRegions seen (pos + 1) 0 rest allow.tail
    | some tag =>
      if allow.headD false = false then scanRegions seen (pos + 1) 0 rest allow.tail
      else do
        let close ← closeRegion seen tag ((b :: rest).drop tag.length) (allow.drop tag.length)
        let spans ← scanRegions (tag.id :: seen) (pos + 1)
          (tag.length + close + closeMark.length - 1) rest allow.tail
        return {
          id := tag.id
          body := ⟨pos + tag.length, pos + tag.length + close⟩
          kind := classifyBody cipher path (((b :: rest).drop tag.length).take close) tag.id }
            :: spans

/-- A file that is not UTF-8 has no regions. -/
def parse (parser : RegionParser) (content : Bytes) :
    Except RegionParseError (List RegionSpan) :=
  if isUtf8 content then
    scanRegions cipher path [] 0 0 content (mask parser.start content)
  else .ok []

/-! ### The read view and the write path -/

/-- One range of the content replaced. -/
def splice (content : Bytes) (sub : ByteRange × Bytes) : Bytes :=
  content.take sub.1.start ++ sub.2 ++ content.drop sub.1.stop

/-- The later ranges are replaced first, so that no replacement shifts a range before it. -/
def withSubstitutions (content : Bytes) (subs : List (ByteRange × Bytes)) : Bytes :=
  (subs.insertionSort fun a b => b.1.start ≤ a.1.start).foldl splice content

def renderReadView (content : Bytes) (spans : List RegionSpan) : Bytes :=
  withSubstitutions content <|
    (spans.filter fun span => span.kind = .ciphertext).map fun span =>
      (span.body, encryptedPlaceholder)

/-- The stored body of the first prior region of an id. -/
def priorBody (prior : Option Bytes) (priorSpans : List RegionSpan) (id : Bytes) :
    Option Bytes :=
  prior.bind fun content =>
    (priorSpans.find? fun span => span.id = id).map fun span => span.body.slice content

/-- The body the write path puts in the place of a plaintext one. -/
def sealBody (prior : Option Bytes) (priorSpans : List RegionSpan) (id body : Bytes) :
    Except RegionParseError Bytes :=
  if body = encryptedPlaceholder then
    match priorBody prior priorSpans id with
    | some stored => .ok stored
    | none => .error (.placeholderForUnknownId id)
  else
    match cipher.encrypt path id body with
    | some sealed => .ok (Base64.encode sealed)
    | none => .error (.invalidId (ascii "encrypt failed for id \"" ++ id ++ ascii "\""))

/-- The substitutions of the write path: a ciphertext span passes through. -/
def writeSubstitutions (content : Bytes) (prior : Option Bytes) (priorSpans : List RegionSpan) :
    List RegionSpan → Except RegionParseError (List (ByteRange × Bytes))
  | [] => .ok []
  | span :: spans =>
    match span.kind with
    | .ciphertext => writeSubstitutions content prior priorSpans spans
    | .plaintext => do
      let body ← sealBody cipher path prior priorSpans span.id (span.body.slice content)
      let subs ← writeSubstitutions content prior priorSpans spans
      return (span.body, body) :: subs

def applyWritePath (content : Bytes) (spans : List RegionSpan) (prior : Option Bytes)
    (priorSpans : List RegionSpan) : Except RegionParseError Bytes := do
  let subs ← writeSubstitutions cipher path content prior priorSpans spans
  return withSubstitutions content subs

/-- The spans of the stored content, none where it does not parse. -/
def priorSpans (parser : RegionParser) (prior : Option Bytes) : List RegionSpan :=
  match prior with
  | none => []
  | some content => (parse cipher path parser content).toOption.getD []

/-- What a commit stores for a new content over the stored one. -/
def sealFile (parser : RegionParser) (prior : Option Bytes) (content : Bytes) :
    Except RegionParseError Bytes := do
  let spans ← parse cipher path parser content
  if spans = [] then return content
  applyWritePath cipher path content spans prior (priorSpans cipher path parser prior)

end Session

end Softfig.LayerB
