import Mathlib.Data.List.DropRight
import Softfig.Doc.SectionEdits
import Softfig.Queue.Identities

/-!
A message of the coordination bus and the document it is stored in.

The document is text: a title, a reviewed stamp, one block of `- key: value` lines, and the body.
It is read back line by line, so what comes out of it is a fact about the characters a sender, a
recipient, a kind and a stamp can hold.

* `parseMessage_messageDoc` — a message that `append` accepts is read back from its document,
  field by field.
* `sameText_readBody` — the body is read back up to white space at its ends, with its line ends
  as line feeds.
-/

namespace Softfig.Growlight

open Doc (Text lines join join_cons join_singleton lines_join lines_append newline_notMem_lines
  trimEnd trim_concat)
open Queue (isWhitespace trimStart trim validateSlug isSlugChar pad3)

/-! ### The message model -/

inductive MessageKind where
  | info
  | coordRequest
  | leaseRequest
  | question
  | alert
  | restartRequest
  deriving DecidableEq, Repr

namespace MessageKind

def all : List MessageKind := [info, coordRequest, leaseRequest, question, alert, restartRequest]

def asWire : MessageKind → Text
  | info => "info".toList
  | coordRequest => "coord-request".toList
  | leaseRequest => "lease-request".toList
  | question => "question".toList
  | alert => "alert".toList
  | restartRequest => "restart-request".toList

def parse (token : Text) : Option MessageKind := all.find? fun kind => kind.asWire = token

theorem parse_asWire (kind : MessageKind) : parse kind.asWire = some kind := by
  cases kind <;> rfl

end MessageKind

/-- The addressee of a message: an agent, the shared channel, or the human. -/
inductive Recipient where
  | agent (slug : Text)
  | all
  | human
  deriving DecidableEq, Repr

namespace Recipient

def toWire : Recipient → Text
  | agent slug => slug
  | all => "@all".toList
  | human => "@human".toList

def parse (token : Text) : Recipient :=
  if token = "@all".toList then all
  else if token = "@human".toList then human
  else agent token

def label : Recipient → Text
  | agent slug => slug
  | all => "all".toList
  | human => "human".toList

end Recipient

/-- A message to append: `sender` is its `from`, `recipient` its `to`. -/
structure Draft where
  sender : Text
  recipient : Recipient
  kind : MessageKind
  body : Text
  deriving DecidableEq, Repr

/-- A stored message. -/
structure Message extends Draft where
  number : Nat
  ts : Text
  deriving DecidableEq, Repr

/-- The sender id of the human. -/
def human : Text := "@human".toList

def validateSender (sender : Text) : Bool := sender = human || validateSlug (String.ofList sender)

/-- Whether a message belongs in an agent's lane. -/
def inLane (msg : Message) (agent : Text) : Bool :=
  if msg.sender = agent then false
  else
    match msg.recipient with
    | .all => true
    | .agent slug => slug = agent
    | .human => false

/-! ### The document -/

def backtick : Char := Char.ofNat 0x60

def ticked (value : Text) : Text := backtick :: value ++ [backtick]

/-- What a date or a time stamp is written with. -/
def isStampChar (c : Char) : Bool := c.isDigit || c = '-' || c = ':' || c = 'T' || c = 'Z'

/-- A date or a time as the clock writes it. -/
abbrev Stamp := {text : Text // text.all isStampChar}

def titleLine (number : Nat) (draft : Draft) : Text :=
  "# msg ".toList ++ (pad3 number).toList ++ " · ".toList ++ draft.sender ++ " → ".toList ++
    draft.recipient.toWire

def fieldLine (key value : Text) : Text := "- ".toList ++ key ++ ": ".toList ++ value

/-- The lines of a document before its body. -/
def messageHead (number : Nat) (draft : Draft) (ts date : Stamp) : List Text :=
  [titleLine number draft, [], "> Last reviewed: ".toList ++ date.1, [],
    fieldLine "from".toList (ticked draft.sender),
    fieldLine "to".toList (ticked draft.recipient.toWire),
    fieldLine "kind".toList (ticked draft.kind.asWire),
    fieldLine "ts".toList ts.1, []]

/-- `trim_end_matches('\n')` -/
def trimNewlines (text : Text) : Text := text.rdropWhile (· = '\n')

def messageDoc (number : Nat) (draft : Draft) (ts date : Stamp) : Text :=
  join (messageHead number draft ts date) ++ '\n' :: trimNewlines draft.body ++ ['\n']

/-- A line without the carriage return before its line feed. -/
def stripCr (line : Text) : Text := if line.getLast? = some '\r' then line.dropLast else line

/-- `str::lines`: what follows the last line feed is a line of its own where it is not empty. -/
def strLines (text : Text) : List Text :=
  (lines text).dropLast.map stripCr ++ (lines text).getLast?.toList.filter (· ≠ [])

def isBlankLine (line : Text) : Bool := line.all isWhitespace

def contains (line part : Text) : Bool := part <:+: line

/-- `trim_matches` of backticks -/
def trimTicks (text : Text) : Text := (text.dropWhile (· = backtick)).rdropWhile (· = backtick)

/-- The value of a `- key:` line. -/
def fieldValue (key line : Text) : Option Text :=
  ((trimStart line).dropPrefix? ("- ".toList ++ key ++ ":".toList)).map fun value =>
    trim (trimTicks (trim value))

def field (block : List Text) (key : Text) : Option Text := block.findSome? (fieldValue key)

/-- The lines after the reviewed stamp. -/
def afterStamp (ls : List Text) : Option (List Text) :=
  match ls.dropWhile fun line => !contains line "Last reviewed:".toList with
  | [] => none
  | _ :: rest => some rest

def parseMessage (number : Nat) (content : Text) : Option Message := do
  let rest ← afterStamp (strLines content)
  let started := rest.dropWhile isBlankLine
  let block := started.takeWhile fun line => !isBlankLine line
  let sender ← field block "from".toList
  let recipient ← field block "to".toList
  let kind ← (field block "kind".toList).bind MessageKind.parse
  let ts ← field block "ts".toList
  let closed := started.dropWhile fun line => !isBlankLine line
  let body := trimEnd (join (closed.dropWhile isBlankLine))
  some ⟨⟨sender, Recipient.parse recipient, kind, body⟩, number, ts⟩

/-! ### Words

What stands in a title or a field is a slug, a stamp or one of the two channel names. -/

def isWordChar (c : Char) : Bool := isSlugChar c || isStampChar c || c = '@'

/-- No character of a word is white space, a backtick or the first letter of the stamp's label. -/
theorem isWordChar_bounds {c : Char} (h : isWordChar c = true) :
    45 ≤ c.toNat ∧ c.toNat ≤ 122 ∧ c.toNat ≠ 0x60 ∧ c.toNat ≠ 76 := by
  simp only [isWordChar, isSlugChar, isStampChar, Bool.or_eq_true, decide_eq_true_eq] at h
  have hdigit {c : Char} (h : c.isDigit = true) : 48 ≤ c.toNat ∧ c.toNat ≤ 57 :=
    Char.isDigit_iff_toNat.mp h
  rcases h with (((h | h) | rfl) | (((h | rfl) | rfl) | rfl) | rfl) | rfl
  · have hbounds := Queue.isLower_bounds h
    omega
  · have hbounds := hdigit h
    omega
  · decide
  · have hbounds := hdigit h
    omega
  all_goals decide

section word

variable {c : Char} (h : isWordChar c = true)
include h

theorem isWhitespace_word : isWhitespace c = false := by
  have hbounds := isWordChar_bounds h
  simp only [isWhitespace, Bool.or_eq_false_iff, Bool.and_eq_false_iff, decide_eq_false_iff_not]
  omega

theorem word_ne_backtick : c ≠ backtick := by
  rintro rfl
  exact (isWordChar_bounds h).2.2.1 rfl

theorem word_ne_label : c ≠ 'L' := by
  rintro rfl
  exact (isWordChar_bounds h).2.2.2 rfl

theorem word_ne_break : c ≠ '\n' ∧ c ≠ '\r' := by
  constructor
  · rintro rfl
    cases isWhitespace_word h
  · rintro rfl
    cases isWhitespace_word h

end word

/-- A text of word characters. -/
def IsWord (text : Text) : Prop := ∀ c ∈ text, isWordChar c = true

instance (text : Text) : Decidable (IsWord text) :=
  decidable_of_iff (text.all isWordChar = true) List.all_eq_true

theorem isWord_stamp (stamp : Stamp) : IsWord stamp.1 := by
  intro c hc
  simp only [isWordChar, List.all_eq_true.mp stamp.2 c hc, Bool.or_true, Bool.true_or]

theorem isWord_kind (kind : MessageKind) : IsWord kind.asWire := by
  cases kind <;> decide

theorem isWord_slug {slug : Text} (h : validateSlug (String.ofList slug) = true) :
    IsWord slug ∧ '@' ∉ slug := by
  simp only [validateSlug, String.toList_ofList, Bool.and_eq_true, List.all_eq_true] at h
  constructor
  · intro c hc
    simp only [isWordChar, h.2 c hc, Bool.true_or]
  · intro hat
    exact absurd (h.2 _ hat) (by decide)

/-! ### Drafts -/

/-- What `append` asks of a draft. -/
structure Draft.Valid (draft : Draft) : Prop where
  sender : validateSender draft.sender = true
  recipient : ∀ slug, draft.recipient = .agent slug → validateSlug (String.ofList slug) = true
  body : trim draft.body ≠ []

namespace Draft.Valid

variable {draft : Draft} (h : draft.Valid)
include h

theorem isWord_sender : IsWord draft.sender := by
  have hsender := h.sender
  rw [validateSender, Bool.or_eq_true, decide_eq_true_eq] at hsender
  rcases hsender with hhuman | hslug
  · rw [hhuman]
    decide
  · exact (isWord_slug hslug).1

theorem isWord_recipient : IsWord draft.recipient.toWire := by
  cases hto : draft.recipient with
  | agent slug => exact (isWord_slug (h.recipient slug hto)).1
  | all => decide
  | human => decide

/-- An addressee is read back from its wire form. -/
theorem parse_toWire : Recipient.parse draft.recipient.toWire = draft.recipient := by
  cases hto : draft.recipient with
  | agent slug =>
    have hne {name : Text} (hname : '@' ∈ name) : slug ≠ name := by
      rintro rfl
      exact (isWord_slug (h.recipient slug hto)).2 hname
    rw [Recipient.toWire, Recipient.parse, if_neg (hne (by decide)), if_neg (hne (by decide))]
  | all => rfl
  | human => rfl

end Draft.Valid

/-! ### Reading lines -/

section trims

variable {text : Text}

theorem trim_eq (text : Text) : trim text = trimEnd (trimStart text) := rfl

theorem trimStart_word (h : IsWord text) : trimStart text = text := by
  cases text with
  | nil => rfl
  | cons c rest =>
    rw [trimStart, List.dropWhile_cons_of_neg]
    rw [isWhitespace_word (h c List.mem_cons_self)]
    exact Bool.false_ne_true

theorem trim_space (text : Text) : trim (' ' :: text) = trim text := rfl

theorem trim_word (h : IsWord text) : trim text = text := by
  rw [trim, trimStart_word h, trimStart_word, List.reverse_reverse]
  intro c hc
  exact h c (List.mem_reverse.mp hc)

/-- Backticks end what they enclose, so nothing of it is trimmed. -/
theorem trim_ticked (text : Text) : trim (ticked text) = ticked text := by
  have hstart : trimStart (ticked text) = ticked text := rfl
  have hback : (ticked text).reverse = backtick :: (backtick :: text).reverse := by
    rw [ticked, List.reverse_append]
    rfl
  have hrest : trimStart (ticked text).reverse = (ticked text).reverse := by
    rw [hback]
    rfl
  rw [trim, hstart, hrest, List.reverse_reverse]

theorem dropTicks_word (h : IsWord text) (rest : Text) (hne : text ≠ []) :
    (text ++ rest).dropWhile (· = backtick) = text ++ rest := by
  cases text with
  | nil => exact absurd rfl hne
  | cons c tail =>
    rw [List.cons_append, List.dropWhile_cons_of_neg]
    simpa using word_ne_backtick (h c List.mem_cons_self)

theorem trimTicks_word (h : IsWord text) : trimTicks text = text := by
  by_cases hne : text = []
  · rw [hne]
    rfl
  have hstart := dropTicks_word h [] hne
  rw [List.append_nil] at hstart
  rw [trimTicks, hstart, List.rdropWhile_eq_self_iff]
  intro _ hlast
  exact word_ne_backtick (h _ (List.getLast_mem hne)) (of_decide_eq_true hlast)

theorem trimTicks_ticked (h : IsWord text) : trimTicks (ticked text) = text := by
  by_cases hne : text = []
  · rw [hne]
    rfl
  have hstart : (ticked text).dropWhile (· = backtick) = text ++ [backtick] := by
    rw [ticked, List.cons_append, List.dropWhile_cons_of_pos (by simp), dropTicks_word h _ hne]
  rw [trimTicks, hstart, List.rdropWhile_concat_pos _ _ _ (by simp), List.rdropWhile_eq_self_iff]
  intro _ hlast
  exact word_ne_backtick (h _ (List.getLast_mem hne)) (of_decide_eq_true hlast)

end trims

section fields

variable {value : Text}

/-- A field is read from its own line. -/
theorem fieldValue_line (key value : Text) :
    fieldValue key (fieldLine key value) = some (trim (trimTicks (trim value))) := by
  have hline : trimStart (fieldLine key value) =
      ("- ".toList ++ key ++ ":".toList) ++ (' ' :: value) := by
    have hstart : trimStart (fieldLine key value) = fieldLine key value := rfl
    rw [hstart, fieldLine]
    simp
  rw [fieldValue, hline, List.dropPrefix?_append_of_beq _ (BEq.rfl), Option.map_some, trim_space]

theorem fieldValue_word (key : Text) (h : IsWord value) :
    fieldValue key (fieldLine key value) = some value := by
  rw [fieldValue_line, trim_word h, trimTicks_word h, trim_word h]

theorem fieldValue_ticked (key : Text) (h : IsWord value) :
    fieldValue key (fieldLine key (ticked value)) = some value := by
  rw [fieldValue_line, trim_ticked, trimTicks_ticked h, trim_word h]

/-- The block of a message gives each of its fields. -/
theorem field_block {sender recipient kind ts : Text} (hsender : IsWord sender)
    (hrecipient : IsWord recipient) (hkind : IsWord kind) (hts : IsWord ts) :
    let block := [fieldLine "from".toList (ticked sender), fieldLine "to".toList (ticked recipient),
      fieldLine "kind".toList (ticked kind), fieldLine "ts".toList ts]
    field block "from".toList = some sender ∧ field block "to".toList = some recipient ∧
      field block "kind".toList = some kind ∧ field block "ts".toList = some ts := by
  have hother (value : Text) : fieldValue "to".toList (fieldLine "from".toList value) = none ∧
      fieldValue "kind".toList (fieldLine "from".toList value) = none ∧
      fieldValue "ts".toList (fieldLine "from".toList value) = none ∧
      fieldValue "kind".toList (fieldLine "to".toList value) = none ∧
      fieldValue "ts".toList (fieldLine "to".toList value) = none ∧
      fieldValue "ts".toList (fieldLine "kind".toList value) = none :=
    ⟨rfl, rfl, rfl, rfl, rfl, rfl⟩
  simp only [field, List.findSome?_cons, hother, fieldValue_ticked _ hsender,
    fieldValue_ticked _ hrecipient, fieldValue_ticked _ hkind, fieldValue_word _ hts, and_self]

end fields

/-! ### Reading the document -/

/-- No line break is in the line. -/
def IsLine (line : Text) : Prop := ∀ c ∈ line, c ≠ '\n' ∧ c ≠ '\r'

instance (line : Text) : Decidable (IsLine line) :=
  decidable_of_iff ((line.all fun c => c ≠ '\n' && c ≠ '\r') = true) (by simp [IsLine])

section document

variable {line : Text} {number : Nat} {draft : Draft} {ts date : Stamp}

theorem IsLine.append {rest : Text} (h : IsLine line) (hrest : IsLine rest) :
    IsLine (line ++ rest) := by
  intro c hc
  rcases List.mem_append.mp hc with hc | hc
  · exact h c hc
  · exact hrest c hc

theorem IsWord.isLine (h : IsWord line) : IsLine line := fun c hc => word_ne_break (h c hc)

theorem isLine_ticked (h : IsWord line) : IsLine (ticked line) :=
  ((by decide : IsLine [backtick]).append h.isLine).append (by decide)

theorem isLine_field {key : Text} (hkey : IsLine key) (h : IsLine line) :
    IsLine (fieldLine key line) :=
  (((by decide : IsLine "- ".toList).append hkey).append (by decide)).append h

theorem isWord_pad3 (number : Nat) : IsWord (pad3 number).toList := by
  intro c hc
  rw [isWordChar, isSlugChar, Queue.pad3_isDigit hc, Bool.or_true, Bool.true_or, Bool.true_or,
    Bool.true_or]

/-- A title is words between its marks. -/
theorem forall_title {p : Char → Prop} (h : draft.Valid) (hmarks : ∀ c ∈ "# msg·→".toList, p c)
    (hword : ∀ c, isWordChar c = true → p c) : ∀ c ∈ titleLine number draft, p c := by
  have hpart {part : Text} (hpart : part ⊆ "# msg·→".toList) : ∀ c ∈ part, p c :=
    fun c hc => hmarks c (hpart hc)
  have hwords {part : Text} (hpart : IsWord part) : ∀ c ∈ part, p c :=
    fun c hc => hword c (hpart c hc)
  unfold titleLine
  refine List.forall_mem_append.mpr ⟨?_, hwords h.isWord_recipient⟩
  refine List.forall_mem_append.mpr ⟨?_, hpart (by decide)⟩
  refine List.forall_mem_append.mpr ⟨?_, hwords h.isWord_sender⟩
  refine List.forall_mem_append.mpr ⟨?_, hpart (by decide)⟩
  exact List.forall_mem_append.mpr ⟨hpart (by decide), hwords (isWord_pad3 number)⟩

theorem isLine_title (h : draft.Valid) : IsLine (titleLine number draft) :=
  forall_title h (by decide : IsLine "# msg·→".toList) fun _ => word_ne_break

theorem isLine_head (h : draft.Valid) : ∀ l ∈ messageHead number draft ts date, IsLine l := by
  have hkind := isLine_ticked (isWord_kind draft.kind)
  have hdate := (by decide : IsLine "> Last reviewed: ".toList).append (isWord_stamp date).isLine
  intro l hl
  simp only [messageHead, List.mem_cons, List.not_mem_nil, or_false] at hl
  rcases hl with rfl | rfl | rfl | rfl | rfl | rfl | rfl | rfl | rfl
  · exact isLine_title h
  · exact fun c hc => absurd hc List.not_mem_nil
  · exact hdate
  · exact fun c hc => absurd hc List.not_mem_nil
  · exact isLine_field (by decide) (isLine_ticked h.isWord_sender)
  · exact isLine_field (by decide) (isLine_ticked h.isWord_recipient)
  · exact isLine_field (by decide) hkind
  · exact isLine_field (by decide) (isWord_stamp ts).isLine
  · exact fun c hc => absurd hc List.not_mem_nil

theorem stripCr_line (h : IsLine line) : stripCr line = line := by
  rw [stripCr, if_neg]
  intro hlast
  exact (h _ (List.mem_of_getLast? hlast)).2 rfl

theorem strLines_concat (text : Text) : strLines (text ++ ['\n']) = (lines text).map stripCr := by
  have hlines : lines (text ++ ['\n']) = lines text ++ [[]] := lines_append text []
  rw [strLines, hlines, List.dropLast_concat, List.getLast?_concat]
  simp

/-- The document is its head, line by line, and the lines of the body. -/
theorem strLines_messageDoc (h : draft.Valid) :
    strLines (messageDoc number draft ts date) =
      messageHead number draft ts date ++ (lines (trimNewlines draft.body)).map stripCr := by
  have hhead : lines (join (messageHead number draft ts date)) = messageHead number draft ts date :=
    lines_join (fun l hl hbreak => (isLine_head h l hl _ hbreak).1 rfl) (List.cons_ne_nil _ _)
  have hstrip : (messageHead number draft ts date).map stripCr = messageHead number draft ts date :=
    (List.map_congr_left fun l hl => stripCr_line (isLine_head h l hl)).trans (List.map_id _)
  rw [messageDoc, strLines_concat, lines_append, hhead, List.map_append, hstrip]

/-- The reviewed stamp is the first line that holds its label. -/
theorem afterStamp_head (h : draft.Valid) (rest : List Text) :
    afterStamp (messageHead number draft ts date ++ rest) =
      some ((messageHead number draft ts date).drop 3 ++ rest) := by
  have htitle : contains (titleLine number draft) "Last reviewed:".toList = false := by
    rw [contains, decide_eq_false_iff_not]
    intro hinfix
    have hmarks : ∀ c ∈ "# msg·→".toList, c ≠ 'L' := by
      rintro c hc rfl
      exact absurd hc (by decide)
    have hlabel := @forall_title number draft (· ≠ 'L') h hmarks fun _ => word_ne_label
    exact hlabel 'L' (List.IsInfix.subset hinfix (by decide)) rfl
  have hblank : contains [] "Last reviewed:".toList = false := rfl
  have hstamp : contains ("> Last reviewed: ".toList ++ date.1) "Last reviewed:".toList = true := by
    have hlabel : "> Last reviewed: ".toList = "> ".toList ++ "Last reviewed:".toList ++ [' '] := by
      decide
    rw [hlabel, List.append_assoc]
    exact decide_eq_true ⟨_, _, rfl⟩
  simp only [afterStamp, messageHead, List.cons_append, List.dropWhile_cons, htitle, hblank, hstamp,
    Bool.not_false, Bool.not_true, if_true, List.drop_succ_cons, List.drop_zero]
  rfl

/-- The body as it is read back from the document. -/
def readBody (body : Text) : Text :=
  trimEnd (join (((lines (trimNewlines body)).map stripCr).dropWhile isBlankLine))

/-- **A message is read back from its document**, field by field. -/
theorem parseMessage_messageDoc (h : draft.Valid) :
    parseMessage number (messageDoc number draft ts date) =
      some ⟨{ draft with body := readBody draft.body }, number, ts.1⟩ := by
  have hblock := field_block h.isWord_sender h.isWord_recipient (isWord_kind draft.kind)
    (isWord_stamp ts)
  have hnotBlank (key value : Text) : isBlankLine (fieldLine key value) = false := rfl
  have hnil : isBlankLine [] = true := rfl
  simp only at hblock
  rw [parseMessage, strLines_messageDoc h, afterStamp_head h]
  simp only [messageHead, List.drop_succ_cons, List.drop_zero, List.cons_append, List.nil_append,
    Option.bind_eq_bind, Option.bind_some, List.dropWhile_cons, List.takeWhile_cons, hnil,
    hnotBlank, Bool.not_true, Bool.not_false, if_true, if_false, Bool.false_eq_true, hblock,
    MessageKind.parse_asWire, h.parse_toWire]
  rfl

end document

/-! ### The body -/

/-- The text with line feeds for line ends. -/
def unixLines (text : Text) : Text := join ((lines text).map stripCr)

/-- `read` is the text posted up to white space at its ends and the style of its line ends. -/
def SameText (read posted : Text) : Prop := trim read = trim (unixLines posted)

section body

variable {text : Text} {ls : List Text}

theorem trim_append_blank (text : Text) {gap : Text} (h : ∀ c ∈ gap, isWhitespace c = true) :
    trim (text ++ gap) = trim text := by
  induction gap using List.reverseRecOn with
  | nil => rw [List.append_nil]
  | append_singleton gap c ih =>
    rw [← List.append_assoc, trim_concat (h c (by simp))]
    exact ih fun c hc => h c (List.mem_append_left _ hc)

theorem trim_blank_append {gap : Text} (h : ∀ c ∈ gap, isWhitespace c = true) (text : Text) :
    trim (gap ++ text) = trim text := by
  rw [trim_eq, trim_eq, trimStart, List.dropWhile_append_of_pos h, trimStart]

theorem trim_trimEnd (text : Text) : trim (trimEnd text) = trim text := by
  have hparts : trimEnd text ++ (text.reverse.takeWhile isWhitespace).reverse = text := by
    rw [trimEnd, trimStart, ← List.reverse_append, List.takeWhile_append_dropWhile,
      List.reverse_reverse]
  have hgap : ∀ c ∈ (text.reverse.takeWhile isWhitespace).reverse, isWhitespace c = true :=
    fun c hc => List.mem_takeWhile_imp (List.mem_reverse.mp hc)
  calc trim (trimEnd text)
      = trim (trimEnd text ++ (text.reverse.takeWhile isWhitespace).reverse) :=
        (trim_append_blank _ hgap).symm
    _ = trim text := by rw [hparts]

/-- An empty last line is a line feed at the end. -/
theorem join_concat_nil (hne : ls ≠ []) : join (ls ++ [[]]) = join ls ++ ['\n'] := by
  induction ls with
  | nil => exact absurd rfl hne
  | cons l ls ih =>
    by_cases hls : ls = []
    · subst hls
      rw [List.singleton_append, join_cons l (List.cons_ne_nil _ _), join_singleton, join_singleton]
    · rw [List.cons_append, join_cons l (by simp), ih hls, join_cons l hls, List.append_assoc,
        List.cons_append]

/-- Blank lines before a text are white space. -/
theorem trim_dropBlank (ls : List Text) :
    trim (join (ls.dropWhile isBlankLine)) = trim (join ls) := by
  induction ls with
  | nil => rfl
  | cons l ls ih =>
    cases hblank : isBlankLine l with
    | false => rw [List.dropWhile_cons_of_neg (by simp [hblank])]
    | true =>
      rw [List.dropWhile_cons_of_pos hblank, ih]
      have hspace : ∀ c ∈ l, isWhitespace c = true := List.all_eq_true.mp hblank
      by_cases hne : ls = []
      · subst hne
        have hgap := trim_blank_append hspace []
        rw [List.append_nil] at hgap
        rw [join_singleton, hgap]
        rfl
      · rw [join_cons l hne, trim_blank_append hspace]
        exact (@trim_blank_append ['\n'] (List.all_eq_true.mp rfl) _).symm

/-- Line feeds at the end of a text are white space at its end. -/
theorem trim_unixLines_newlines (text : Text) :
    trim (unixLines (trimNewlines text)) = trim (unixLines text) := by
  induction text using List.reverseRecOn with
  | nil => rfl
  | append_singleton text c ih =>
    by_cases hc : c = '\n'
    · have hlast : unixLines (text ++ [c]) = unixLines text ++ ['\n'] := by
        have hlines : lines (text ++ [c]) = lines text ++ [[]] := hc ▸ lines_append text []
        rw [unixLines, hlines, List.map_append]
        exact join_concat_nil (by simpa using Doc.lines_ne_nil text)
      rw [trimNewlines, List.rdropWhile_concat_pos _ _ _ (by simpa using hc), hlast,
        trim_concat (by decide)]
      exact ih
    · rw [trimNewlines, List.rdropWhile_concat_neg _ _ _ (by simpa using hc)]

/-- **The body read back is the body posted**, up to white space at its ends and line ends. -/
theorem sameText_readBody (body : Text) : SameText (readBody body) body := by
  rw [SameText, readBody, trim_trimEnd, trim_dropBlank]
  exact trim_unixLines_newlines body

end body

end Softfig.Growlight
