import Mathlib.Data.List.Forall2
import Mathlib.Data.List.Sort
import Softfig.Growlight.Chat
import Softfig.Lib.Except
import Softfig.Lib.Mailbox
import Softfig.Lib.Transition

/-!
The coordination bus: numbered message documents, a cursor for each agent, and the verbs that
post, read an inbox and tail the bus.

A verb stages its writes in the working tree and then commits; a commit that fails leaves them
staged. A read stages the agent's cursor before its commit, so a failed commit takes messages
from the agent that no read returned.

* `Kept.call` — what the verbs keep while the numbers have three digits, the documents read back
  as written and no read with something to take fails its commit.
* `bus_delivers` — in such a run every agent gets its lane, once each and in order.
* `not_delivers_lostRead` — a run that loses a message.
-/

namespace Softfig.Growlight

open Doc (Text)
open Queue (trim slugMax validateSlug noteFilename parseNoteNumber)
open Lib

/-! ### The store -/

/-- Why a verb does nothing, or fails after it staged its writes. -/
inductive BusError where
  | invalidSlug (slug : Text)
  | emptyBody
  | unknownKind (token : Text)
  | alreadyExists (path : String)
  | refused
  | commitFailed
  deriving DecidableEq

/-- The working tree around the store: the guards on a document and on a cursor, what a committed
document reads back as, and the order a directory lists its documents in. -/
structure Tree where
  checkWrite : Text → Bool
  checkCursor : Text → Bool
  settle : Text → Text
  readDir : List (String × Text) → List (String × Text)
  readDir_perm : ∀ files, (readDir files).Perm files

/-- `growlight/chat`: the mark and the documents of `messages`, and the files of `cursors` by
their agent. -/
structure Bus where
  seq : Option Text
  messages : List (String × Text)
  cursors : Text → Option Text

def stripPlus (text : Text) : Text :=
  match text with
  | '+' :: rest => rest
  | _ => text

/-- `parse::<u32>` -/
def parseU32 (text : Text) : Option Nat :=
  let digits := stripPlus text
  if digits ≠ [] ∧ digits.all Char.isDigit ∧ Nat.ofDigitChars 10 digits 0 < 2 ^ 32 then
    some (Nat.ofDigitChars 10 digits 0)
  else none

/-- The number a counter file holds, 0 where there is none. -/
def readCounter (content : Option Text) : Nat := (content.bind fun text => parseU32 (trim text)).getD 0

def counterText (number : Nat) : Text := Nat.toDigits 10 number ++ ['\n']

/-- One character of `slugify`: the text so far and whether a dash is pending. -/
def slugifyStep (out : Text × Bool) (ch : Char) : Text × Bool :=
  if ch.toLower.isAlphanum then
    ((if out.2 && out.1 ≠ [] then out.1 ++ ['-'] else out.1) ++ [ch.toLower], false)
  else (out.1, true)

def slugify (text : Text) : Text :=
  let out := (text.foldl slugifyStep ([], false)).1
  let out := if slugMax < out.length then (out.take slugMax).rdropWhile (· = '-') else out
  if out = [] then "note".toList else out

def senderLabel (sender : Text) : Text := if sender = human then "human".toList else sender

/-- The name of a message's document. -/
def messageRel (number : Nat) (draft : Draft) : String :=
  noteFilename number
    (String.ofList (slugify (senderLabel draft.sender ++ "-to-".toList ++ draft.recipient.label)))

namespace Bus

/-- One past the mark and every document. -/
def nextNumber (tree : Tree) (bus : Bus) : Nat :=
  max (readCounter bus.seq)
    (((tree.readDir bus.messages).filterMap fun file => parseNoteNumber file.1).foldl max 0) + 1

/-- Bump the mark and write the document. -/
def writeNumbered (tree : Tree) (bus : Bus) (number : Nat) (rel : String) (content : Text) :
    Except BusError Bus :=
  if bus.messages.any fun file => file.1 = rel then .error (.alreadyExists rel)
  else if !tree.checkWrite content then .error .refused
  else .ok { bus with seq := counterText number, messages := bus.messages ++ [(rel, content)] }

def append (tree : Tree) (bus : Bus) (draft : Draft) (ts date : Stamp) :
    Except BusError (Bus × Message) :=
  if !validateSender draft.sender then .error (.invalidSlug draft.sender)
  else
    let recipient? := match draft.recipient with
      | .agent slug => if validateSlug (String.ofList slug) then none else some slug
      | _ => none
    match recipient? with
    | some slug => .error (.invalidSlug slug)
    | none =>
      if trim draft.body = [] then .error .emptyBody
      else
        let number := bus.nextNumber tree
        match bus.writeNumbered tree number (messageRel number draft)
            (messageDoc number draft ts date) with
        | .error e => .error e
        | .ok written => .ok (written, ⟨draft, number, ts.1⟩)

/-- The message of a document, where its name and its text are those of one. -/
def readEntry (file : String × Text) : Option Message :=
  (parseNoteNumber file.1).bind fun number => parseMessage number file.2

/-- Every message in ascending number. -/
def allMessages (tree : Tree) (bus : Bus) : List Message :=
  ((tree.readDir bus.messages).filterMap readEntry).insertionSort fun m m' => m.number ≤ m'.number

def cursor (bus : Bus) (agent : Text) : Nat := readCounter (bus.cursors agent)

def unread (tree : Tree) (bus : Bus) (agent : Text) : List Message :=
  (bus.allMessages tree).filter fun m => bus.cursor agent < m.number && inLane m agent

/-- Advance the cursor; a lower number is passed over. -/
def advanceCursor (tree : Tree) (bus : Bus) (agent : Text) (number : Nat) : Except BusError Bus :=
  if number ≤ bus.cursor agent then .ok bus
  else if !tree.checkCursor agent then .error .refused
  else .ok { bus with cursors := Function.update bus.cursors agent (some (counterText number)) }

/-- The documents read back as they were committed. -/
def commit (tree : Tree) (bus : Bus) : Bus :=
  { bus with messages := bus.messages.map fun file => (file.1, tree.settle file.2) }

/-- `commit_now`: a commit that fails leaves what is staged. -/
def commitNow {α : Type} (tree : Tree) (bus : Bus) (committed : Bool) (reply : α) :
    Bus × Except BusError α :=
  if committed then (bus.commit tree, .ok reply) else (bus, .error .commitFailed)

end Bus

/-! ### The verbs -/

/-- The arguments of `post_message`. -/
structure PostMessageArgs where
  sender : Text
  recipient : Text
  kind : Text
  body : Text

/-- The draft of the arguments. -/
def PostMessageArgs.draft (args : PostMessageArgs) (kind : MessageKind) : Draft :=
  ⟨args.sender, Recipient.parse args.recipient, kind, args.body⟩

section verbs

variable (tree : Tree) (bus : Bus)

/-- What `post_message` stages. -/
def postStaged (args : PostMessageArgs) (ts date : Stamp) : Except BusError (Bus × Message) :=
  match MessageKind.parse args.kind with
  | none => .error (.unknownKind args.kind)
  | some kind => bus.append tree (args.draft kind) ts date

/-- The number and the document of the message. -/
def postMessage (args : PostMessageArgs) (ts date : Stamp) (committed : Bool) :
    Bus × Except BusError (Nat × String) :=
  match postStaged tree bus args ts date with
  | .error e => (bus, .error e)
  | .ok (staged, msg) =>
    staged.commitNow tree committed (msg.number, messageRel msg.number msg.toDraft)

/-- The unread messages of an agent; reading them moves its cursor past them. -/
def readInbox (agent : Text) (committed : Bool) : Bus × Except BusError (List Message) :=
  if !validateSlug (String.ofList agent) then (bus, .error (.invalidSlug agent))
  else
    let messages := bus.unread tree agent
    match (messages.map Message.number).max? with
    | none => (bus, .ok messages)
    | some number =>
      match bus.advanceCursor tree agent number with
      | .error e => (bus, .error e)
      | .ok staged => staged.commitNow tree committed messages

/-- Every message past a number. -/
def tailBus (since : Nat) : List Message :=
  (bus.allMessages tree).filter fun m => since < m.number

end verbs

/-! ### Runs -/

/-- The bus, the messages that posts appended, oldest first, and the messages that the reads of
an agent returned. -/
structure World where
  bus : Bus
  posted : List Message
  received : Text → List Message

inductive BusCall where
  | post (args : PostMessageArgs) (ts date : Stamp) (committed : Bool)
  | read (agent : Text) (committed : Bool)
  | tail (since : Nat)

/-- The world after a call. -/
def World.call (tree : Tree) (w : World) : BusCall → World
  | .post args ts date committed =>
    { w with
      bus := (postMessage tree w.bus args ts date committed).1
      posted := match postStaged tree w.bus args ts date with
        | .error _ => w.posted
        | .ok (_, msg) => w.posted ++ [msg] }
  | .read agent committed =>
    { w with
      bus := (readInbox tree w.bus agent committed).1
      received := match (readInbox tree w.bus agent committed).2 with
        | .error _ => w.received
        | .ok messages => Function.update w.received agent (w.received agent ++ messages) }
  | .tail _ => w

/-- No message is posted or read, and no document has a number. -/
structure World.Fresh (w : World) : Prop where
  seq : readCounter w.bus.seq = 0
  messages : ∀ file ∈ w.bus.messages, parseNoteNumber file.1 = none
  cursors : ∀ agent, w.bus.cursor agent = 0
  posted : w.posted = []
  received : ∀ agent, w.received agent = []

def busSystem (tree : Tree) : System World BusCall where
  init := World.Fresh
  step w call w' := w' = w.call tree call

/-! ### What a run delivers -/

/-- A message returned by a read is one that was posted. -/
structure ReadsAs (read posted : Message) : Prop where
  number : read.number = posted.number
  sender : read.sender = posted.sender
  recipient : read.recipient = posted.recipient
  kind : read.kind = posted.kind
  ts : read.ts = posted.ts
  body : SameText read.body posted.body

theorem ReadsAs.inLane {read posted : Message} (h : ReadsAs read posted) (agent : Text) :
    inLane read agent = inLane posted agent := by
  rw [Growlight.inLane, Growlight.inLane, h.sender, h.recipient]

/-- What the bus delivers: numbers in posting order; to every agent its lane in that order, each
message by one read; by a read that succeeds all that is unread; and by a tail every message past
its number. -/
structure Delivers (tree : Tree) (w : World) : Prop where
  numbered : (w.posted.map Message.number).Pairwise (· < ·)
  lanes : ∀ agent, List.Forall₂ ReadsAs (w.received agent ++ w.bus.unread tree agent)
    (w.posted.filter fun m => inLane m agent)
  reads : ∀ agent committed bus messages, readInbox tree w.bus agent committed = (bus, .ok messages) →
    messages = w.bus.unread tree agent ∧ bus.unread tree agent = []
  tail : ∀ since, List.Forall₂ ReadsAs (tailBus tree w.bus since)
    (w.posted.filter fun m => since < m.number)

/-- A read of the agent that returns an error leaves the bus as it is. -/
def ErrorsKeep (tree : Tree) (w : World) (agent : Text) (committed : Bool) : Prop :=
  ∀ bus e, readInbox tree w.bus agent committed = (bus, .error e) → bus = w.bus

/-- The calls that the bus delivers under: a post that is accepted has a number of three digits
and a document that reads back as written, and the commit of a read that takes something does not
fail. -/
def BusCall.Sound (tree : Tree) (w : World) : BusCall → Prop
  | .post args ts date _ => ∀ kind, MessageKind.parse args.kind = some kind →
      (args.draft kind).Valid →
      let doc := messageDoc (w.posted.length + 1) (args.draft kind) ts date
      tree.checkWrite doc = true → w.posted.length < 999 ∧ tree.settle doc = doc
  | .read agent committed => validateSlug (String.ofList agent) = true →
      tree.checkCursor agent = true →
      committed = true ∨ ∀ m ∈ w.posted, inLane m agent = true → m.number ≤ w.bus.cursor agent
  | .tail _ => True

/-! ### What a call does -/

section calls

variable {tree : Tree} {bus staged : Bus} {draft : Draft} {ts date : Stamp} {msg : Message}

theorem writeNumbered_ok {number : Nat} {rel : String} {content : Text}
    (h : bus.writeNumbered tree number rel content = .ok staged) :
    tree.checkWrite content = true ∧
      staged = { bus with seq := counterText number, messages := bus.messages ++ [(rel, content)] } := by
  unfold Bus.writeNumbered at h
  split at h
  · cases h
  · split at h
    · cases h
    · rename_i hcheck
      exact ⟨by simpa using hcheck, (Except.ok.inj h).symm⟩

theorem append_ok (h : bus.append tree draft ts date = .ok (staged, msg)) :
    draft.Valid ∧ bus.writeNumbered tree (bus.nextNumber tree)
        (messageRel (bus.nextNumber tree) draft)
        (messageDoc (bus.nextNumber tree) draft ts date) = .ok staged ∧
      msg = ⟨draft, bus.nextNumber tree, ts.1⟩ := by
  unfold Bus.append at h
  split at h
  · cases h
  rename_i hsender
  simp only at h
  split at h
  · cases h
  rename_i hrecipient
  split at h
  · cases h
  rename_i hbody
  split at h
  · cases h
  rename_i written hwritten
  obtain ⟨rfl, rfl⟩ := Prod.mk.inj (Except.ok.inj h)
  refine ⟨⟨by simpa using hsender, fun slug hslug => ?_, hbody⟩, hwritten, rfl⟩
  rw [hslug] at hrecipient
  simp only at hrecipient
  split at hrecipient
  · assumption
  · cases hrecipient

/-- The two ends of a post: nothing is staged, or the message is, and the commit may fail. -/
theorem postMessage_cases (args : PostMessageArgs) (committed : Bool) :
    (∃ e, postStaged tree bus args ts date = .error e ∧
      postMessage tree bus args ts date committed = (bus, .error e)) ∨
    ∃ kind staged msg, MessageKind.parse args.kind = some kind ∧
      bus.append tree (args.draft kind) ts date = .ok (staged, msg) ∧
      postStaged tree bus args ts date = .ok (staged, msg) ∧
      (postMessage tree bus args ts date committed).1 =
        if committed then staged.commit tree else staged := by
  cases hpost : postStaged tree bus args ts date with
  | error e => exact .inl ⟨e, rfl, by rw [postMessage, hpost]⟩
  | ok reply =>
    obtain ⟨staged, msg⟩ := reply
    right
    have hstaged := hpost
    unfold postStaged at hpost
    split at hpost
    · cases hpost
    · rename_i kind hkind
      refine ⟨kind, staged, msg, hkind, hpost, rfl, ?_⟩
      rw [postMessage, hstaged]
      cases committed <;> rfl

/-- The ends of a read: an error changes nothing, there is nothing to take, or the cursor moves to
the last message taken, whether the commit fails or not. -/
theorem readInbox_cases (agent : Text) (committed : Bool) :
    (∃ e, readInbox tree bus agent committed = (bus, .error e)) ∨
    (bus.unread tree agent = [] ∧ readInbox tree bus agent committed = (bus, .ok [])) ∨
    ∃ m ∈ bus.unread tree agent, (∀ m' ∈ bus.unread tree agent, m'.number ≤ m.number) ∧
      validateSlug (String.ofList agent) = true ∧ tree.checkCursor agent = true ∧
      readInbox tree bus agent committed =
        { bus with cursors := Function.update bus.cursors agent (some (counterText m.number)) }.commitNow
          tree committed (bus.unread tree agent) := by
  unfold readInbox
  split
  · exact .inl ⟨_, rfl⟩
  rename_i hslug
  simp only
  split
  · rename_i hnone
    have hnil : bus.unread tree agent = [] := by
      simpa using hnone
    exact .inr (.inl ⟨hnil, by rw [hnil]⟩)
  · rename_i number hmax
    obtain ⟨hmem, hle⟩ := List.max?_eq_some_iff.mp hmax
    obtain ⟨m, hm, rfl⟩ := List.mem_map.mp hmem
    have hpast : bus.cursor agent < m.number := by
      have hboth := (List.mem_filter.mp hm).2
      simp only [Bool.and_eq_true, decide_eq_true_eq] at hboth
      exact hboth.1
    rw [Bus.advanceCursor, if_neg (by omega)]
    by_cases hcheck : tree.checkCursor agent = true
    · refine .inr (.inr ⟨m, hm, fun m' hm' => hle _ (List.mem_map_of_mem hm'), by simpa using hslug,
        hcheck, ?_⟩)
      rw [hcheck]
      rfl
    · rw [Bool.not_eq_true] at hcheck
      rw [hcheck]
      exact .inl ⟨_, rfl⟩

end calls

/-! ### Counters and names -/

theorem parseU32_toDigits {number : Nat} (h : number < 2 ^ 32) :
    parseU32 (Nat.toDigits 10 number) = some number := by
  have hdigit : ∀ c ∈ Nat.toDigits 10 number, c.isDigit = true := fun c hc =>
    Nat.isDigit_of_mem_toDigits (by decide) (by decide) hc
  have hplain : stripPlus (Nat.toDigits 10 number) = Nat.toDigits 10 number := by
    unfold stripPlus
    split
    · rename_i rest hrest
      have hfirst := hdigit '+' (hrest ▸ List.mem_cons_self)
      cases hfirst
    · rfl
  rw [parseU32, hplain, Nat.ofDigitChars_ten_toDigits, if_pos]
  exact ⟨Nat.toDigits_ne_nil, List.all_eq_true.mpr hdigit, h⟩

theorem readCounter_counterText {number : Nat} (h : number < 2 ^ 32) :
    readCounter (some (counterText number)) = number := by
  have hword : IsWord (Nat.toDigits 10 number) := by
    intro c hc
    have hdigit : c.isDigit = true := Nat.isDigit_of_mem_toDigits (by decide) (by decide) hc
    simp only [isWordChar, isStampChar, hdigit, Bool.true_or, Bool.or_true]
  have htrim : trim (counterText number) = Nat.toDigits 10 number := by
    rw [counterText, Doc.trim_concat (by decide), trim_word hword]
  rw [readCounter, Option.bind_some, htrim, parseU32_toDigits h, Option.getD_some]

/-- A number of at most three digits is read back from its name. -/
theorem parseNoteNumber_noteFilename {number : Nat} (h : number < 1000) (slug : String) :
    parseNoteNumber (noteFilename number slug) = some number := by
  have hlength : (Nat.toDigits 10 number).length ≤ 3 :=
    (Nat.length_toDigits_le_iff (by decide) (by decide)).mpr h
  have hpad : (Queue.pad3 number).toList = (Nat.toDigits 10 number).leftpad 3 '0' := by
    rw [Queue.pad3, String.toList_ofList]
  have hvalue : Nat.ofDigitChars 10 (Queue.pad3 number).toList 0 = number := by
    rw [hpad, List.leftpad, Queue.ofDigitChars_zeros, Nat.ofDigitChars_ten_toDigits]
  have hthree : (Queue.pad3 number).toList.length = 3 := by
    rw [hpad, List.length_leftpad]
    omega
  obtain ⟨a, b, c, habc⟩ := List.length_eq_three.mp hthree
  have hdigit : ∀ d ∈ [a, b, c], d.isDigit = true := fun d hd => Queue.pad3_isDigit (habc ▸ hd)
  have hname : (noteFilename number slug).toList =
      a :: b :: c :: '-' :: (slug.toList ++ ".md".toList) := by
    simp [noteFilename, habc]
  have hend : (slug.toList ++ ".md".toList).reverse.take 3 = ['d', 'm', '.'] := by
    rw [List.reverse_append]
    rfl
  rw [parseNoteNumber, hname]
  simp only
  rw [hdigit a (by simp), hdigit b (by simp), hdigit c (by simp), hend, if_pos (by decide), ← habc,
    hvalue]

/-- The document of a message holds that message. -/
theorem exists_readEntry {number : Nat} {draft : Draft} (hvalid : draft.Valid)
    (h : number < 1000) (ts date : Stamp) :
    ∃ entry, Bus.readEntry (messageRel number draft, messageDoc number draft ts date) = some entry ∧
      ReadsAs entry ⟨draft, number, ts.1⟩ := by
  refine ⟨⟨{ draft with body := readBody draft.body }, number, ts.1⟩, ?_, ?_⟩
  · rw [Bus.readEntry, messageRel, parseNoteNumber_noteFilename h, Option.bind_some]
    exact parseMessage_messageDoc hvalid
  · exact ⟨rfl, rfl, rfl, rfl, rfl, sameText_readBody draft.body⟩

theorem foldl_max_le {numbers : List Nat} {first bound : Nat} (hfirst : first ≤ bound)
    (h : ∀ number ∈ numbers, number ≤ bound) : numbers.foldl max first ≤ bound := by
  induction numbers generalizing first with
  | nil => exact hfirst
  | cons number numbers ih =>
    exact ih (max_le hfirst (h number List.mem_cons_self))
      fun number hnumber => h number (List.mem_cons_of_mem _ hnumber)

/-! ### What a run keeps -/

/-- The messages of the documents, as the directory holds them. -/
def Bus.stored (bus : Bus) : List Message := bus.messages.filterMap Bus.readEntry

/-- The run so far was sound. -/
structure Kept (tree : Tree) (w : World) : Prop where
  reads : List.Forall₂ ReadsAs w.bus.stored w.posted
  named : (w.bus.messages.filterMap fun file => parseNoteNumber file.1) = w.posted.map Message.number
  numbered : w.posted.map Message.number = List.range' 1 w.posted.length
  few : w.posted.length ≤ 999
  seq : readCounter w.bus.seq = w.posted.length
  settled : ∀ file ∈ w.bus.messages, (parseNoteNumber file.1).isSome → tree.settle file.2 = file.2
  cursors : ∀ agent, w.bus.cursor agent ≤ w.posted.length
  lanes : ∀ agent, Mailbox.Consistent Message.number (inLane · agent) (w.bus.cursor agent)
    w.bus.stored (w.received agent)

namespace Kept

variable {tree : Tree} {w : World}

theorem of_fresh (h : w.Fresh) : Kept tree w := by
  have hstored : w.bus.stored = [] := by
    rw [Bus.stored, List.filterMap_eq_nil_iff]
    intro file hfile
    rw [Bus.readEntry, h.messages file hfile]
    rfl
  refine ⟨?_, ?_, ?_, ?_, ?_, ?_, ?_, ?_⟩
  · rw [hstored, h.posted]
    exact .nil
  · rw [h.posted, List.map_nil, List.filterMap_eq_nil_iff]
    exact h.messages
  · rw [h.posted]
    rfl
  · rw [h.posted]
    exact Nat.zero_le _
  · rw [h.posted, h.seq]
    rfl
  · intro file hfile hnumber
    rw [h.messages file hfile] at hnumber
    cases hnumber
  · intro agent
    rw [h.cursors]
    exact Nat.zero_le _
  · intro agent
    rw [hstored, h.received]
    exact .nil

section sound

variable (h : Kept tree w)
include h

theorem stored_numbers : w.bus.stored.map Message.number = List.range' 1 w.posted.length := by
  rw [← h.numbered, ← List.forall₂_eq_eq_eq, List.forall₂_map_left_iff, List.forall₂_map_right_iff]
  exact h.reads.imp fun _ _ hreads => hreads.number

/-- A directory lists the messages in any order, and they are sorted by number. -/
theorem allMessages_eq : w.bus.allMessages tree = w.bus.stored := by
  have hperm : (w.bus.allMessages tree).Perm w.bus.stored :=
    (List.perm_insertionSort _ _).trans ((tree.readDir_perm _).filterMap _)
  have hlt : w.bus.stored.Pairwise fun m m' => m.number < m'.number := by
    have hrange : (w.bus.stored.map Message.number).Pairwise (· < ·) :=
      h.stored_numbers ▸ List.pairwise_lt_range'
    exact List.pairwise_map.mp hrange
  refine hperm.eq_of_pairwise ?_ (List.pairwise_insertionSort _ _) (hlt.imp fun hless => hless.le)
  intro m m' hm hm' hle hle'
  have hinj := List.inj_on_of_nodup_map (h.stored_numbers ▸ List.nodup_range')
  exact hinj (hperm.mem_iff.mp hm) hm' (le_antisymm hle hle')

theorem unread_eq (agent : Text) : w.bus.unread tree agent =
    Mailbox.pending Message.number (inLane · agent) (w.bus.cursor agent) w.bus.stored := by
  rw [Bus.unread, h.allMessages_eq]
  rfl

theorem number_le {m : Message} (hm : m ∈ w.bus.stored) :
    1 ≤ m.number ∧ m.number ≤ w.posted.length := by
  have hmem : m.number ∈ List.range' 1 w.posted.length :=
    h.stored_numbers ▸ List.mem_map_of_mem hm
  have hbounds := List.mem_range'_1.mp hmem
  omega

theorem nextNumber_eq : w.bus.nextNumber tree = w.posted.length + 1 := by
  have hlive : ((tree.readDir w.bus.messages).filterMap
      fun file => parseNoteNumber file.1).foldl max 0 ≤ w.posted.length := by
    refine foldl_max_le (Nat.zero_le _) fun number hnumber => ?_
    have hmem := ((tree.readDir_perm w.bus.messages).filterMap _).mem_iff.mp hnumber
    rw [h.named, h.numbered, List.mem_range'_1] at hmem
    omega
  rw [Bus.nextNumber, h.seq, max_eq_left hlive]

/-- A commit changes no message. -/
theorem commit_entries {α : Type} (f : String × Text → Option α)
    (hf : ∀ name text text', parseNoteNumber name = none → f (name, text) = f (name, text')) :
    (w.bus.commit tree).messages.filterMap f = w.bus.messages.filterMap f := by
  rw [Bus.commit, List.filterMap_map]
  refine List.filterMap_congr fun file hfile => ?_
  show f (file.1, tree.settle file.2) = f file
  cases hnumber : parseNoteNumber file.1 with
  | none => exact hf file.1 _ _ hnumber
  | some number => rw [h.settled file hfile (by rw [hnumber]; rfl)]

theorem commit_stored : (w.bus.commit tree).stored = w.bus.stored := by
  refine h.commit_entries Bus.readEntry fun name text text' hname => ?_
  rw [Bus.readEntry, Bus.readEntry, hname]
  rfl

theorem commit : Kept tree { w with bus := w.bus.commit tree } := by
  have hstored := h.commit_stored
  have hnamed := h.commit_entries (fun file => parseNoteNumber file.1) fun _ _ _ _ => rfl
  constructor
  · exact hstored ▸ h.reads
  · exact hnamed.trans h.named
  · exact h.numbered
  · exact h.few
  · exact h.seq
  · intro file hfile hnumber
    obtain ⟨before, hbefore, rfl⟩ := List.mem_map.mp hfile
    have hsettled := h.settled before hbefore hnumber
    show tree.settle (tree.settle before.2) = tree.settle before.2
    rw [hsettled, hsettled]
  · exact h.cursors
  · intro agent
    exact hstored ▸ h.lanes agent

/-- A message posted is stored behind all others, and pending for every agent of its lane. -/
theorem posted {draft : Draft} {ts date : Stamp} (hvalid : draft.Valid)
    (hfew : w.posted.length < 999)
    (hsettled : tree.settle (messageDoc (w.posted.length + 1) draft ts date) =
      messageDoc (w.posted.length + 1) draft ts date) :
    let number := w.posted.length + 1
    Kept tree
      { w with
        bus := { w.bus with
          seq := counterText number
          messages := w.bus.messages ++ [(messageRel number draft, messageDoc number draft ts date)] }
        posted := w.posted ++ [⟨draft, number, ts.1⟩] } := by
  intro number
  have hname : parseNoteNumber (messageRel number draft) = some number :=
    parseNoteNumber_noteFilename (by omega) _
  obtain ⟨entry, hentry, hreads⟩ :=
    exists_readEntry hvalid (show number < 1000 by omega) ts date
  have hstored : (w.bus.messages ++ [(messageRel number draft,
      messageDoc number draft ts date)]).filterMap Bus.readEntry = w.bus.stored ++ [entry] := by
    rw [List.filterMap_append, List.filterMap_cons_some hentry]
    rfl
  have hlength (msg : Message) : (w.posted ++ [msg]).length = w.posted.length + 1 := by simp
  constructor
  · show List.Forall₂ ReadsAs (List.filterMap Bus.readEntry (w.bus.messages ++ _)) _
    rw [hstored]
    exact List.rel_append h.reads (.cons hreads .nil)
  · show List.filterMap _ (w.bus.messages ++ _) = (w.posted ++ _).map Message.number
    rw [List.filterMap_append, h.named, List.map_append]
    exact congrArg (_ ++ ·) (List.filterMap_cons_some hname)
  · show (w.posted ++ _).map Message.number = List.range' 1 (w.posted ++ _).length
    rw [hlength, List.range'_1_concat, List.map_append, h.numbered, Nat.add_comm 1]
    rfl
  · show (w.posted ++ _).length ≤ 999
    rw [hlength]
    omega
  · show readCounter (some (counterText number)) = (w.posted ++ _).length
    rw [readCounter_counterText (by omega), hlength]
  · intro file hfile hnumber
    rcases List.mem_append.mp hfile with hfile | hfile
    · exact h.settled file hfile hnumber
    · rw [List.mem_singleton.mp hfile]
      exact hsettled
  · intro agent
    have hcursor := h.cursors agent
    show w.bus.cursor agent ≤ (w.posted ++ _).length
    rw [hlength]
    omega
  · intro agent
    show Mailbox.Consistent Message.number (inLane · agent) (w.bus.cursor agent)
      (List.filterMap Bus.readEntry (w.bus.messages ++ _)) (w.received agent)
    rw [hstored]
    exact (h.lanes agent).append (hreads.number ▸ Nat.lt_succ_of_le (h.cursors agent))

theorem cursor_moved {agent : Text} {m : Message} {bus : Bus} (hm : m ∈ w.bus.stored)
    (hbus : bus.cursors agent = some (counterText m.number)) : bus.cursor agent = m.number := by
  have hbound := (h.number_le hm).2
  have hfew := h.few
  rw [Bus.cursor, hbus, readCounter_counterText (by omega)]

/-- A read that takes all that is unread has its whole lane. -/
theorem taken {agent : Text} {m : Message} (hm : m ∈ w.bus.unread tree agent)
    (hlast : ∀ m' ∈ w.bus.unread tree agent, m'.number ≤ m.number) :
    Kept tree
      { w with
        bus := { w.bus with
          cursors := Function.update w.bus.cursors agent (some (counterText m.number)) }
        received := Function.update w.received agent
          (w.received agent ++ w.bus.unread tree agent) } := by
  rw [h.unread_eq] at hm hlast ⊢
  obtain ⟨hstored, hpast, -⟩ := Mailbox.mem_pending.mp hm
  obtain ⟨-, hbound⟩ := h.number_le hstored
  have hmoved (bus : Bus) (hbus : bus.cursors agent = some (counterText m.number)) :
      bus.cursor agent = m.number := h.cursor_moved hstored hbus
  have hother (other : Text) (hne : other ≠ agent) (bus : Bus)
      (hbus : bus.cursors other = w.bus.cursors other) : bus.cursor other = w.bus.cursor other := by
    rw [Bus.cursor, hbus, Bus.cursor]
  refine { h with cursors := fun other => ?_, lanes := fun other => ?_ }
  · by_cases hother' : other = agent
    · rw [hother', hmoved _ (Function.update_self ..)]
      exact hbound
    · rw [hother other hother' _ (Function.update_of_ne hother' ..)]
      exact h.cursors other
  · by_cases hother' : other = agent
    · rw [hother', hmoved _ (Function.update_self ..)]
      show Mailbox.Consistent _ _ _ w.bus.stored (Function.update w.received agent _ agent)
      rw [Function.update_self]
      exact (h.lanes agent).take hpast.le hlast
    · rw [hother other hother' _ (Function.update_of_ne hother' ..)]
      show Mailbox.Consistent _ _ _ w.bus.stored (Function.update w.received agent _ other)
      rw [Function.update_of_ne hother']
      exact h.lanes other

/-- Nothing is unread after a read that takes all that was. -/
theorem unread_taken {agent : Text} {m : Message} (hm : m ∈ w.bus.unread tree agent)
    (hlast : ∀ m' ∈ w.bus.unread tree agent, m'.number ≤ m.number) :
    Bus.unread tree
      (Bus.commit tree
        { w.bus with
          cursors := Function.update w.bus.cursors agent (some (counterText m.number)) })
      agent = [] := by
  have hcommitted := (h.taken hm hlast).commit.unread_eq agent
  rw [h.unread_eq] at hm hlast
  obtain ⟨hstored, hpast, -⟩ := Mailbox.mem_pending.mp hm
  refine hcommitted.trans ?_
  rw [h.cursor_moved hstored (Function.update_self ..)]
  show Mailbox.pending Message.number (inLane · agent) m.number (w.bus.commit tree).stored = []
  rw [h.commit_stored]
  exact Mailbox.pending_passed hpast.le hlast

/-- A message unread is posted, in the lane, past the cursor. -/
theorem exists_posted {agent : Text} {m : Message} (hm : m ∈ w.bus.unread tree agent) :
    ∃ msg ∈ w.posted, inLane msg agent = true ∧ w.bus.cursor agent < msg.number := by
  rw [h.unread_eq] at hm
  obtain ⟨hstored, hpast, hlane⟩ := Mailbox.mem_pending.mp hm
  obtain ⟨msg, hmsg, hreads⟩ := forall₂_mem_left h.reads hstored
  exact ⟨msg, hmsg, hreads.inLane agent ▸ hlane, hreads.number ▸ hpast⟩

/-- A sound read either leaves the bus, and has nothing to take where it succeeds, or takes all
that is unread and commits. -/
theorem read_cases {agent : Text} {committed : Bool}
    (hsound : BusCall.Sound tree w (.read agent committed)) :
    (∃ e, readInbox tree w.bus agent committed = (w.bus, .error e)) ∨
    (w.bus.unread tree agent = [] ∧ readInbox tree w.bus agent committed = (w.bus, .ok [])) ∨
    ∃ m ∈ w.bus.unread tree agent, (∀ m' ∈ w.bus.unread tree agent, m'.number ≤ m.number) ∧
      readInbox tree w.bus agent committed =
        (Bus.commit tree
          { w.bus with
            cursors := Function.update w.bus.cursors agent (some (counterText m.number)) },
          .ok (w.bus.unread tree agent)) := by
  rcases @readInbox_cases tree w.bus agent committed with
    herror | hnone | ⟨m, hm, hlast, hslug, hcheck, hread⟩
  · exact .inl herror
  · exact .inr (.inl hnone)
  · refine .inr (.inr ⟨m, hm, hlast, ?_⟩)
    have hcommitted : committed = true := by
      rcases hsound hslug hcheck with hcommitted | hpassed
      · exact hcommitted
      · obtain ⟨msg, hmsg, hlane, hpast⟩ := h.exists_posted hm
        have hle := hpassed msg hmsg hlane
        omega
    rw [hread, hcommitted]
    rfl

/-- **A sound call keeps the run sound.** -/
theorem call {call : BusCall} (hsound : call.Sound tree w) : Kept tree (w.call tree call) := by
  cases call with
  | tail since => exact h
  | post args ts date committed =>
    rcases @postMessage_cases tree w.bus ts date args committed with ⟨e, hstaged, hpost⟩ | ⟨kind, staged, msg, hkind, happend, hstaged, hpost⟩
    · rw [World.call, hstaged, hpost]
      exact h
    · obtain ⟨hvalid, hwritten, rfl⟩ := append_ok happend
      obtain ⟨hcheck, rfl⟩ := writeNumbered_ok hwritten
      rw [h.nextNumber_eq] at hcheck hstaged hpost
      obtain ⟨hfew, hsettled⟩ := hsound kind hkind hvalid hcheck
      have hkept := h.posted hvalid hfew hsettled
      rw [World.call, hstaged, hpost]
      cases committed with
      | false => exact hkept
      | true => exact hkept.commit
  | read agent committed =>
    rcases h.read_cases hsound with ⟨e, hread⟩ | ⟨hnil, hread⟩ | ⟨m, hm, hlast, hread⟩
    · rw [World.call, hread]
      exact h
    · rw [World.call, hread]
      simp only [List.append_nil, Function.update_eq_self]
      exact h
    · rw [World.call, hread]
      exact (h.taken hm hlast).commit

/-- A sound run delivers. -/
theorem delivers : Delivers tree w := by
  constructor
  · rw [h.numbered]
    exact List.pairwise_lt_range'
  · intro agent
    rw [h.unread_eq, h.lanes agent]
    exact List.rel_filter (fun _ _ hreads => Bool.eq_iff_iff.mp (hreads.inLane agent)) h.reads
  · intro agent committed bus messages hread
    rcases @readInbox_cases tree w.bus agent committed with
      ⟨e, herror⟩ | ⟨hnil, hnone⟩ | ⟨m, hm, hlast, -, -, htaken⟩
    · cases hread.symm.trans herror
    · obtain ⟨rfl, hmessages⟩ := Prod.mk.inj (hread.symm.trans hnone)
      exact ⟨hnil ▸ Except.ok.inj hmessages, hnil⟩
    · have hcommit := hread.symm.trans htaken
      cases committed with
      | false => cases (Prod.mk.inj hcommit).2
      | true =>
        obtain ⟨rfl, hmessages⟩ := Prod.mk.inj hcommit
        exact ⟨Except.ok.inj hmessages, h.unread_taken hm hlast⟩
  · intro since
    rw [tailBus, h.allMessages_eq]
    refine List.rel_filter (fun m msg hreads => ?_) h.reads
    show decide (since < m.number) = true ↔ decide (since < msg.number) = true
    rw [hreads.number]

/-- A sound read that returns an error consumes nothing. -/
theorem errorsKeep {agent : Text} {committed : Bool}
    (hsound : BusCall.Sound tree w (.read agent committed)) :
    ErrorsKeep tree w agent committed := by
  intro bus e hread
  rcases h.read_cases hsound with ⟨e', herror⟩ | ⟨-, hnone⟩ | ⟨m, -, -, htaken⟩
  · exact (Prod.mk.inj (hread.symm.trans herror)).1
  · cases (Prod.mk.inj (hread.symm.trans hnone)).2
  · cases (Prod.mk.inj (hread.symm.trans htaken)).2

end sound

/-- Every world of a sound run is kept. -/
theorem guarded {w₀ : World} {calls : List BusCall} (hinit : w₀.Fresh)
    (hrun : (busSystem tree).Guarded (fun w call => call.Sound tree w) w₀ calls w) :
    Kept tree w := by
  induction hrun with
  | refl => exact of_fresh hinit
  | snoc _ hsound hstep ih => exact hstep ▸ ih.call hsound

end Kept

/-- **The bus delivers in every sound run**: whatever the senders, the recipients, the kinds and
the bodies, every agent gets its lane once each and in order, and a read that returns an error
consumes nothing. -/
theorem bus_delivers {tree : Tree} {w₀ w : World} {calls : List BusCall} (hinit : w₀.Fresh)
    (hrun : (busSystem tree).Guarded (fun w call => call.Sound tree w) w₀ calls w) :
    Delivers tree w ∧ ∀ agent committed, BusCall.Sound tree w (.read agent committed) →
      ErrorsKeep tree w agent committed :=
  ⟨(Kept.guarded hinit hrun).delivers, fun _ _ => (Kept.guarded hinit hrun).errorsKeep⟩

section demo

/-- A working tree with no guard and no vault region, its directories in order of writing. -/
def plainTree : Tree := ⟨fun _ => true, fun _ => true, id, id, fun _ => .refl _⟩

def emptyWorld : World := ⟨⟨none, [], fun _ => none⟩, [], fun _ => []⟩

def demoStamp : Stamp := ⟨"2026-01-01".toList, by decide⟩

/-- A post by alice to bob. -/
def demoPost (committed : Bool) : BusCall :=
  .post ⟨"alice".toList, "bob".toList, "question".toList, "ready?".toList⟩ demoStamp demoStamp
    committed

def demoRead (committed : Bool) : BusCall := .read "bob".toList committed

theorem emptyWorld_fresh : emptyWorld.Fresh where
  seq := rfl
  messages := fun _ hfile => absurd hfile List.not_mem_nil
  cursors := fun _ => rfl
  posted := rfl
  received := fun _ => rfl

/-- A post whose commit fails is delivered by the next read. -/
theorem bus_delivers_demo :
    let posted := emptyWorld.call plainTree (demoPost false)
    let read := posted.call plainTree (demoRead true)
    Delivers plainTree read ∧ (read.received "bob".toList).length = 1 := by
  intro posted read
  refine ⟨(bus_delivers emptyWorld_fresh (.snoc (.snoc (.refl _) ?_ rfl) ?_ rfl)).1, ?_⟩
  · exact fun kind _ _ _ => ⟨by decide, rfl⟩
  · exact fun _ _ => .inl rfl
  · decide +kernel

/-- A read whose commit fails takes the message, and no read returns it. -/
theorem not_delivers_lostRead :
    ¬∀ (tree : Tree) (w₀ w : World) (calls : List BusCall), w₀.Fresh →
      (busSystem tree).Run w₀ calls w → Delivers tree w := by
  intro h
  have hrun : (busSystem plainTree).Run emptyWorld [demoPost true, demoRead false]
      ((emptyWorld.call plainTree (demoPost true)).call plainTree (demoRead false)) :=
    .snoc (.snoc (.refl _) rfl) rfl
  have hlanes := (h _ _ _ _ emptyWorld_fresh hrun).lanes "bob".toList
  have hlength := hlanes.length_eq
  revert hlength
  decide +kernel

end demo

end Softfig.Growlight
