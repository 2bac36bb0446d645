import Mathlib.Data.List.AList
import Softfig.Lib.Rows
import Softfig.Queue.Validate

/-!
The files the queue verbs read and write, and what the verbs share: the checks
of their arguments, numbered documents, loading with validation, and placement.

- `pad3_injective`: two numbers never format to one id;
- `placeEntry_le`, `placeItem_le`: a position found is one of the list.
-/

namespace Softfig.Queue

open Lib

/-! ### Texts -/

/-- Unicode white space. -/
def isWhitespace (c : Char) : Bool :=
  let n := c.toNat
  (9 ≤ n && n ≤ 13) || n = 0x20 || n = 0x85 || n = 0xA0 || n = 0x1680 ||
    (0x2000 ≤ n && n ≤ 0x200A) || n = 0x2028 || n = 0x2029 || n = 0x202F || n = 0x205F ||
    n = 0x3000

def trimStart (chars : List Char) : List Char := chars.dropWhile isWhitespace

def trim (chars : List Char) : List Char := (trimStart (trimStart chars).reverse).reverse

/-- Nothing but white space. -/
def isBlank (s : String) : Bool := s.toList.all isWhitespace

def slugMax : Nat := 64

def isSlugChar (c : Char) : Bool := c.isLower || c.isDigit || c = '-'

/-- `[a-z0-9-]+`, at most 64 bytes. -/
def validateSlug (slug : String) : Bool :=
  slug.toList ≠ [] && slug.toList.length ≤ slugMax && slug.toList.all isSlugChar

/-- A number of at least three digits. -/
def pad3 (n : Nat) : String := String.ofList ((Nat.toDigits 10 n).leftpad 3 '0')

theorem ofDigitChars_zeros {n : Nat} {chars : List Char} :
    Nat.ofDigitChars 10 (List.replicate n '0' ++ chars) 0 = Nat.ofDigitChars 10 chars 0 := by
  induction n with
  | zero => rfl
  | succ n ih =>
    rw [List.replicate_succ, List.cons_append]
    exact ih

theorem pad3_injective {n m : Nat} (h : pad3 n = pad3 m) : n = m := by
  have hchars := String.ofList_injective h
  have hvalue := congrArg (fun chars => Nat.ofDigitChars 10 chars 0) hchars
  simpa only [List.leftpad, ofDigitChars_zeros, Nat.ofDigitChars_ten_toDigits] using hvalue

/-! ### Metadata lines -/

/-- The key of a `> key: value` line. -/
def metadataKey (line : List Char) : Option (List Char) :=
  match trimStart line with
  | '>' :: rest =>
    if (trim rest).contains ':' then some (trim ((trim rest).takeWhile (· ≠ ':'))) else none
  | _ => none

def splitLines : List Char → List (List Char)
  | [] => [[]]
  | c :: cs =>
    if c = '\n' then [] :: splitLines cs
    else
      match splitLines cs with
      | [] => [[c]]
      | line :: lines => (c :: line) :: lines

/-- The first key of a text among those reserved. -/
def reservedField (text : String) (keys : List String) : Option String :=
  (splitLines text.toList).findSome? fun line =>
    (metadataKey line).bind fun key => keys.find? fun k => key.map Char.toLower = k.toList

def subDocReserved : List String := ["model", "grants", "worktree"]

def sliceBodyReserved : List String := ["grants", "worktree"]

/-! ### Arguments -/

inductive QueueStatusArg where
  | queued
  | blocked
  | deferred
  | done
  | active
  | paused
  | split
  deriving DecidableEq

inductive DaemonStatusArg where
  | paused
  | blocked
  | deferred
  | queued
  | done
  | split
  deriving DecidableEq

/-- What a verb says about arguments it cannot use. -/
inductive ArgError where
  | empty (field : String)
  | fieldNotAllowed (field key : String)
  | positionTakesNoRef (position : String)
  | positionRequiresRef (position : String)
  | unknownPosition (position : String)
  | relativeToItself (id : String)
  | emptySliceBody (slug : String)
  | taskTakesNoSlices
  | restackTakesOnlyProject (name : String)
  | noSlices
  | entryNotClaimable (id : String) (status : EntryStatus)
  | onlyMilestonesHaveSlices (entry : String) (kind : EntryKind)
  | sliceNotClaimable (unit : String) (status : SliceStatus)
  | notASliceStatus (new : DaemonStatusArg)
  | notAnEntryStatus (new : DaemonStatusArg)
  | sliceNotActive (unit : String) (status : SliceStatus)
  | entryNotActive (id : String) (status : EntryStatus)
  | subClosesOnly (sub : String) (new : SliceStatus)
  | subNotOpen (sub : String) (status : SliceStatus)
  | openItems (identity : String) (items : List String)
  | followUpsSliceOnly (unit : String)
  | notAnActiveSlice (slice : String) (kind : SliceKind) (status : SliceStatus)
  deriving DecidableEq

/-- Why a verb does nothing: a state refusal, its arguments, or a file that does
not validate. -/
inductive WireError where
  | refused (refusal : QueueRefusal)
  | badArgs (error : ArgError)
  | internal (refusal : QueueRefusal)
  deriving DecidableEq

/-- Go on where a condition holds. -/
def ensure (c : Prop) [Decidable c] (error : WireError) : Except WireError Unit :=
  if c then .ok () else .error error

theorem ensure_ok_iff {c : Prop} [Decidable c] {error : WireError} {u : Unit} :
    ensure c error = .ok u ↔ c := by
  unfold ensure
  split <;> simp_all

/-- A state refusal on the wire. -/
def refuse {α : Type} : Except QueueRefusal α → Except WireError α
  | .ok a => .ok a
  | .error refusal => .error (.refused refusal)

theorem refuse_ok_iff {α : Type} {x : Except QueueRefusal α} {a : α} :
    refuse x = .ok a ↔ x = .ok a := by
  cases x with
  | ok b => simp [refuse]
  | error refusal => simp [refuse]

/-- The value of an option, or an error. -/
def expect {α : Type} (error : WireError) : Option α → Except WireError α
  | some a => .ok a
  | none => .error error

theorem expect_ok_iff {α : Type} {error : WireError} {x : Option α} {a : α} :
    expect error x = .ok a ↔ x = some a := by
  cases x with
  | none => simp [expect]
  | some b => simp [expect]

inductive Position where
  | front
  | back
  | before (ref : String)
  | after (ref : String)
  deriving DecidableEq

/-- The position is relative to the row of an id. -/
def Position.refersTo (id : String) : Position → Bool
  | .front | .back => false
  | .before ref | .after ref => ref = id

def parsePosition (position ref : Option String) : Except WireError Position :=
  let position := position.getD "back"
  let ref := (ref.map fun r => String.ofList (trim r.toList)).filter (· ≠ "")
  if position = "front" ∨ position = "back" then
    if ref.isSome then .error (.badArgs (.positionTakesNoRef position))
    else if position = "front" then .ok .front
    else .ok .back
  else if position = "before" ∨ position = "after" then
    match ref with
    | none => .error (.badArgs (.positionRequiresRef position))
    | some r => if position = "before" then .ok (.before r) else .ok (.after r)
  else .error (.badArgs (.unknownPosition position))

/-! ### Numbered documents -/

/-- A folder of `NNN-slug.md` documents with its `.seq` mark, 0 where there is none. -/
structure NumberedDir where
  seq : Nat
  files : List String
  deriving DecidableEq

def noteFilename (number : Nat) (slug : String) : String := pad3 number ++ "-" ++ slug ++ ".md"

/-- The number of a document, three digits and a dash. -/
def parseNoteNumber (name : String) : Option Nat :=
  match name.toList with
  | a :: b :: c :: '-' :: rest =>
    if a.isDigit && b.isDigit && c.isDigit && rest.reverse.take 3 = ['d', 'm', '.'] then
      some (Nat.ofDigitChars 10 [a, b, c] 0)
    else none
  | _ => none

/-- One past the mark and every document. -/
def NumberedDir.nextNumber (dir : NumberedDir) : Nat :=
  max dir.seq ((dir.files.filterMap parseNoteNumber).foldl max 0) + 1

/-- Add documents and set the mark. -/
def NumberedDir.write (dir : NumberedDir) (seq : Nat) (files : List String) : NumberedDir :=
  ⟨seq, dir.files ++ files⟩

/-! ### The garden -/

/-- A milestone's folder: its slice order and the documents of its slices. -/
structure MilestoneDir where
  slices : SlicesToml
  docs : NumberedDir

/-- The live list, its archive, the milestones' folders by identity, and the task
documents. -/
structure Garden where
  queue : Option QueueToml
  archive : Option QueueArchiveToml
  milestones : AList fun _ : String => MilestoneDir
  tasks : NumberedDir

namespace Garden

def empty : Garden := ⟨none, none, ∅, ⟨0, []⟩⟩

/-- No file reads as an empty list. -/
def queueToml (g : Garden) : QueueToml := g.queue.getD ⟨[], []⟩

def archiveToml (g : Garden) : QueueArchiveToml := g.archive.getD ⟨[]⟩

def loadQueueState (g : Garden) : Except WireError (Option (QueueToml × QueueArchiveToml)) :=
  match g.queue with
  | none => .ok none
  | some queue =>
    match queue.validate g.archiveToml with
    | .error refusal => .error (.internal refusal)
    | .ok () => .ok (some (queue, g.archiveToml))

def loadSlices (g : Garden) (milestone : String) : Except WireError (Option SlicesToml) :=
  match g.milestones.lookup milestone with
  | none => .ok none
  | some dir =>
    match dir.slices.validate milestone with
    | .error refusal => .error (.internal refusal)
    | .ok () => .ok (some dir.slices)

/-- Write the live list, and the archive where it changed. -/
def writeQueue (g : Garden) (queue : QueueToml) (archive : Option QueueArchiveToml) : Garden :=
  { g with queue := some queue, archive := archive.or g.archive }

/-- Write a slice order that is there. -/
def writeSlices (g : Garden) (milestone : String) (slices : SlicesToml) : Garden :=
  match g.milestones.lookup milestone with
  | none => g
  | some dir => { g with milestones := g.milestones.insert milestone { dir with slices } }

theorem loadQueueState_some {g : Garden} {queue : QueueToml} {archive : QueueArchiveToml}
    (h : g.loadQueueState = .ok (some (queue, archive))) :
    g.queue = some queue ∧ archive = g.archiveToml ∧ queue.validate archive = .ok () := by
  rw [loadQueueState] at h
  cases hq : g.queue with
  | none => simp [hq] at h
  | some q =>
    simp only [hq] at h
    cases hvalid : q.validate g.archiveToml with
    | error refusal => simp [hvalid] at h
    | ok u =>
      simp only [hvalid, Except.ok.injEq, Option.some.injEq, Prod.mk.injEq] at h
      obtain ⟨rfl, rfl⟩ := h
      exact ⟨rfl, rfl, hvalid⟩

theorem loadQueueState_none {g : Garden} (h : g.loadQueueState = .ok none) : g.queue = none := by
  rw [loadQueueState] at h
  cases hq : g.queue with
  | none => rfl
  | some q =>
    simp only [hq] at h
    cases hvalid : q.validate g.archiveToml with
    | error refusal => simp [hvalid] at h
    | ok u => simp [hvalid] at h

theorem loadSlices_some {g : Garden} {milestone : String} {slices : SlicesToml}
    (h : g.loadSlices milestone = .ok (some slices)) :
    ∃ dir, g.milestones.lookup milestone = some dir ∧ dir.slices = slices ∧
      slices.validate milestone = .ok () := by
  rw [loadSlices] at h
  cases hdir : g.milestones.lookup milestone with
  | none => simp [hdir] at h
  | some dir =>
    simp only [hdir] at h
    cases hvalid : dir.slices.validate milestone with
    | error refusal => simp [hvalid] at h
    | ok u =>
      simp only [hvalid, Except.ok.injEq, Option.some.injEq] at h
      subst h
      exact ⟨dir, rfl, rfl, hvalid⟩

end Garden

/-! ### Placement -/

/-- The first position of a lane. -/
def laneFront (entries : List Entry) (lane : Lane) : Nat :=
  match entries.findIdx? fun e => e.lane = lane with
  | some i => i
  | none =>
    match lane with
    | .urgent => 0
    | .normal => entries.length

/-- The position behind the last entry of a lane. -/
def laneBack (entries : List Entry) (lane : Lane) : Nat :=
  match entries.reverse.findIdx? fun e => e.lane = lane with
  | some i => entries.length - i
  | none => laneFront entries lane

/-- The position of an entry of a lane. -/
def refIndex (entries : List Entry) (lane : Lane) (ref : String) : Except QueueRefusal Nat :=
  match Rows.row? (·.id) ref entries, Rows.position? (·.id) ref entries with
  | some e, some i => if e.lane ≠ lane then .error (.laneMismatch ref) else .ok i
  | _, _ => .error (.unknownId ref)

def placeEntry (entries : List Entry) (lane : Lane) : Position → Except QueueRefusal Nat
  | .front => .ok (laneFront entries lane)
  | .back => .ok (laneBack entries lane)
  | .before ref => refIndex entries lane ref
  | .after ref => (refIndex entries lane ref).map (· + 1)

def itemIndex (items : List SliceItem) (id : String) : Except QueueRefusal Nat :=
  match Rows.position? (·.id) id items with
  | some i => .ok i
  | none => .error (.unknownId id)

def placeItem (items : List SliceItem) : Position → Except QueueRefusal Nat
  | .front => .ok 0
  | .back => .ok items.length
  | .before ref => itemIndex items ref
  | .after ref => (itemIndex items ref).map (· + 1)

theorem laneFront_le (entries : List Entry) (lane : Lane) :
    laneFront entries lane ≤ entries.length := by
  unfold laneFront
  split
  · rename_i i hi
    obtain ⟨hlt, -⟩ := List.findIdx?_eq_some_iff_getElem.mp hi
    omega
  · cases lane <;> simp

theorem laneBack_le (entries : List Entry) (lane : Lane) :
    laneBack entries lane ≤ entries.length := by
  unfold laneBack
  split
  · omega
  · exact laneFront_le entries lane

theorem refIndex_lt {entries : List Entry} {lane : Lane} {ref : String} {i : Nat}
    (h : refIndex entries lane ref = .ok i) : i < entries.length := by
  rw [refIndex] at h
  split at h
  · rename_i e j he hj
    split at h
    · cases h
    · obtain rfl := Except.ok.inj h
      exact Rows.position?_lt hj
  · cases h

theorem placeEntry_le {entries : List Entry} {lane : Lane} {position : Position} {i : Nat}
    (h : placeEntry entries lane position = .ok i) : i ≤ entries.length := by
  cases position with
  | front =>
    obtain rfl := Except.ok.inj h
    exact laneFront_le entries lane
  | back =>
    obtain rfl := Except.ok.inj h
    exact laneBack_le entries lane
  | before ref => exact (refIndex_lt h).le
  | after ref =>
    rw [placeEntry] at h
    cases href : refIndex entries lane ref with
    | error refusal => simp [href, Except.map] at h
    | ok j =>
      have := refIndex_lt href
      simp only [href, Except.map, Except.ok.injEq] at h
      omega

theorem itemIndex_lt {items : List SliceItem} {id : String} {i : Nat}
    (h : itemIndex items id = .ok i) : i < items.length := by
  rw [itemIndex] at h
  split at h
  · rename_i j hj
    obtain rfl := Except.ok.inj h
    exact Rows.position?_lt hj
  · cases h

theorem placeItem_le {items : List SliceItem} {position : Position} {i : Nat}
    (h : placeItem items position = .ok i) : i ≤ items.length := by
  cases position with
  | front =>
    obtain rfl := Except.ok.inj h
    omega
  | back =>
    obtain rfl := Except.ok.inj h
    omega
  | before ref => exact (itemIndex_lt h).le
  | after ref =>
    rw [placeItem] at h
    cases href : itemIndex items ref with
    | error refusal => simp [href, Except.map] at h
    | ok j =>
      have := itemIndex_lt href
      simp only [href, Except.map, Except.ok.injEq] at h
      omega

end Softfig.Queue
