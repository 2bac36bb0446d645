import Softfig.Doc.Managed

/-!
The metadata lines of an item document: blockquote lines `> key: value`.

A resolver reads the first line of a key outside fenced code. A guard reads every line of a key,
fenced or not.

- `field_eq_none`: what a guard finds nothing for, no resolver reads;
- `guarded_unread`: nor in any document that a guarded text is put in;
- `held_iff`: a document is held by a `Fleet` line that is not `yes`.
-/

namespace Softfig.Doc

open Softfig.Queue (trimStart trim)

/-- A metadata line: its key and its value, trimmed. -/
def metadataLine (line : Text) : Option (Text × Text) :=
  match trimStart line with
  | '>' :: rest =>
    let content := trim rest
    let key := content.takeWhile (· ≠ ':')
    match content.drop key.length with
    | _ :: value => some (trim key, trim value)
    | [] => none
  | _ => none

/-- `eq_ignore_ascii_case`, the key of a resolver being in lower case. -/
def isKey (key : String) (written : Text) : Bool := decide (written.map Char.toLower = key.toList)

/-- The value of the first line of a key, after lines that leave a fence open or not. -/
def fieldFrom (key : String) : Bool → List Text → Option Text
  | _, [] => none
  | fenced, line :: rest =>
    if isFence line then fieldFrom key (!fenced) rest
    else if fenced then fieldFrom key fenced rest
    else
      match metadataLine line with
      | some (k, value) => if isKey key k then some value else fieldFrom key fenced rest
      | none => fieldFrom key fenced rest

def field (doc : Text) (key : String) : Option Text := fieldFrom key false (lines doc)

/-- The key of a line, if it is one of these. -/
def lineKey (keys : List String) (line : Text) : Option String :=
  (metadataLine line).bind fun l => keys.find? fun key => isKey key l.1

/-- `reserved_field`: the first key of these that a line has. -/
def reservedField (text : Text) (keys : List String) : Option String :=
  (lines text).findSome? (lineKey keys)

/-- `reserved_lines`: the lines of these keys. -/
def reservedLines (text : Text) (keys : List String) : List Text :=
  ((lines text).filter fun line => (lineKey keys line).isSome).map trim

/-- `fleet_marker`: the value that holds a document, none where it is claimable. -/
def fleetMarker (doc : Text) : Option Text :=
  (field doc "fleet").filter fun value => !isKey "yes" value

def held (doc : Text) : Bool := (fleetMarker doc).isSome

/-! ### Resolvers and guards -/

theorem lineKey_singleton {key : String} {line : Text} :
    (lineKey [key] line).isSome ↔ ∃ k value, metadataLine line = some (k, value) ∧
      isKey key k = true := by
  unfold lineKey
  cases hline : metadataLine line with
  | none => simp
  | some l =>
    obtain ⟨k, value⟩ := l
    cases hkey : isKey key k with
    | true => simp [hkey]
    | false => simp [hkey]

/-- A line that a resolver reads is one of the lines of its key. -/
theorem mem_of_fieldFrom {key : String} {fenced : Bool} {ls : List Text} {value : Text}
    (h : fieldFrom key fenced ls = some value) :
    ∃ line ∈ ls, ∃ k, metadataLine line = some (k, value) ∧ isKey key k = true := by
  induction ls generalizing fenced with
  | nil => cases h
  | cons line rest ih =>
    have hrest : ∀ fenced, fieldFrom key fenced rest = some value →
        ∃ l ∈ line :: rest, ∃ k, metadataLine l = some (k, value) ∧ isKey key k = true := by
      intro fenced hfield
      obtain ⟨l, hl, hread⟩ := ih hfield
      exact ⟨l, List.mem_cons_of_mem _ hl, hread⟩
    rw [fieldFrom] at h
    split_ifs at h
    · exact hrest _ h
    · exact hrest _ h
    · cases hline : metadataLine line with
      | none =>
        rw [hline] at h
        exact hrest _ h
      | some l =>
        obtain ⟨k, read⟩ := l
        rw [hline] at h
        dsimp only at h
        split_ifs at h with hkey
        · cases h
          exact ⟨line, List.mem_cons_self, k, hline, hkey⟩
        · exact hrest _ h

/-- **A resolver reads nothing where a guard finds no line of its key.** -/
theorem field_eq_none {doc : Text} {key : String} (h : reservedLines doc [key] = []) :
    field doc key = none := by
  cases hfield : field doc key with
  | none => rfl
  | some value =>
    obtain ⟨line, hline, k, hread, hkey⟩ := mem_of_fieldFrom hfield
    rw [reservedLines, List.map_eq_nil_iff, List.filter_eq_nil_iff] at h
    exact absurd (lineKey_singleton.mpr ⟨k, value, hread, hkey⟩) (h line hline)

/-- **No key of these has a line** where the guard finds none. -/
theorem reservedField_eq_none {text : Text} {keys : List String} :
    reservedField text keys = none ↔ ∀ key ∈ keys, reservedLines text [key] = [] := by
  rw [reservedField, List.findSome?_eq_none_iff]
  constructor
  · intro h key hkey
    rw [reservedLines, List.map_eq_nil_iff, List.filter_eq_nil_iff]
    intro line hline hsome
    obtain ⟨k, value, hread, hk⟩ := lineKey_singleton.mp hsome
    have hnone := h line hline
    rw [lineKey, hread, Option.bind_some, List.find?_eq_none] at hnone
    exact hnone key hkey hk
  · intro h line hline
    rw [lineKey, Option.bind_eq_none_iff]
    rintro ⟨k, value⟩ hread
    rw [List.find?_eq_none]
    intro key hkey hk
    have hnone := h key hkey
    rw [reservedLines, List.map_eq_nil_iff, List.filter_eq_nil_iff] at hnone
    exact hnone line hline (lineKey_singleton.mpr ⟨k, value, hread, hk⟩)

/-- **No resolver reads a guarded text**: wherever it is put in a document, a value read for one of
the keys stands in a line around it. -/
theorem guarded_unread {doc text : Text} {keys : List String} {before after : List Text}
    (hguard : reservedField text keys = none) (hdoc : lines doc = before ++ lines text ++ after)
    {key : String} (hkey : key ∈ keys) {value : Text} (hread : field doc key = some value) :
    ∃ line ∈ before ++ after, ∃ k, metadataLine line = some (k, value) ∧ isKey key k = true := by
  obtain ⟨line, hline, k, hmeta, hk⟩ := mem_of_fieldFrom hread
  refine ⟨line, ?_, k, hmeta, hk⟩
  have hnot : line ∉ lines text := fun hmem => by
    have hnone := reservedField_eq_none.mp hguard key hkey
    rw [reservedLines, List.map_eq_nil_iff, List.filter_eq_nil_iff] at hnone
    exact hnone line hmem (lineKey_singleton.mpr ⟨k, value, hmeta, hk⟩)
  simpa [hdoc, hnot] using hline

/-- A guarded text that opens a fence hides the line behind it, and adds none. -/
theorem guarded_unread_model : ∃ line ∈ ["> Model: a".toList] ++ ["> Model: b".toList], ∃ k,
    metadataLine line = some (k, ['a']) ∧ isKey "model" k = true :=
  @guarded_unread "> Model: a\nModel: c\n```\n> Model: b".toList "Model: c\n```".toList ["model"] _ _
    (by decide +kernel) (by decide +kernel) "model" List.mem_cons_self ['a'] (by decide +kernel)

/-- **A document is held** by a `Fleet` line that is not `yes`. -/
theorem held_iff {doc : Text} :
    held doc = true ↔ ∃ value, field doc "fleet" = some value ∧ isKey "yes" value = false := by
  rw [held, fleetMarker, Option.isSome_iff_exists]
  refine exists_congr fun value => ?_
  rw [Option.filter_eq_some_iff, Bool.not_eq_true']

end Softfig.Doc
