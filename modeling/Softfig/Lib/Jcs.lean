import Mathlib.Data.List.Basic
import Mathlib.Data.String.Basic

/-!
JSON values and their canonical text (RFC 8785: members in UTF-16 order of
their keys, no blanks, one escape per character, one spelling per number).

`render` writes a value in the order it is given, `canon` sorts the members of
every object, and `jcs` is one after the other. Canonical text is a prefix
code, so a value can be read off the front of a longer text in only one way:

- `render_append_inj`: equal texts with delimited continuations come from equal
  values and leave equal continuations;
- `canon_eq_of_jcs_eq`: equal canonical texts come from values that are equal up
  to the order of members;
- `get_canonMembers`: sorting the members of an object keeps every lookup, so
  `jcs_member_eq` compares two objects member by member.
-/

namespace Softfig.Lib.Jcs

/-! ### Numerals -/

/-- The characters a JSON number is written with. -/
def isNumeralChar (c : Char) : Bool :=
  c.isDigit || c == '-' || c == '+' || c == '.' || c == 'e' || c == 'E'

/-- The text of a number: never empty, and made of number characters only. -/
structure Numeral where
  chars : List Char
  nonempty : chars ≠ []
  wellFormed : ∀ c ∈ chars, isNumeralChar c = true

@[ext]
theorem Numeral.ext {a b : Numeral} (h : a.chars = b.chars) : a = b := by
  cases a
  cases b
  cases h
  rfl

instance : DecidableEq Numeral := fun a b =>
  decidable_of_iff (a.chars = b.chars) ⟨Numeral.ext, fun h => h ▸ rfl⟩

theorem isNumeralChar_of_isDigit {c : Char} (h : c.isDigit = true) : isNumeralChar c = true := by
  simp [isNumeralChar, h]

theorem toDigits_isDigit (n : Nat) : ∀ c ∈ Nat.toDigits 10 n, c.isDigit = true := fun c hc =>
  Nat.isDigit_of_mem_toDigits (by decide) (by decide) hc

/-- A natural number in decimal. -/
def Numeral.ofNat (n : Nat) : Numeral where
  chars := Nat.toDigits 10 n
  nonempty := Nat.toDigits_ne_nil
  wellFormed c hc := isNumeralChar_of_isDigit (toDigits_isDigit n c hc)

/-- An integer in decimal. -/
def Numeral.ofInt : Int → Numeral
  | .ofNat n => .ofNat n
  | .negSucc n =>
    { chars := '-' :: Nat.toDigits 10 (n + 1)
      nonempty := List.cons_ne_nil _ _
      wellFormed := by
        intro c hc
        rcases List.mem_cons.mp hc with rfl | hc
        · rfl
        · exact isNumeralChar_of_isDigit (toDigits_isDigit _ c hc) }

theorem toDigits_injective {m n : Nat} (h : Nat.toDigits 10 m = Nat.toDigits 10 n) : m = n := by
  have hm := Nat.ofDigitChars_toDigits (b := 10) (n := m) (by decide) (by decide)
  have hn := Nat.ofDigitChars_toDigits (b := 10) (n := n) (by decide) (by decide)
  rw [← hm, ← hn, h]

theorem Numeral.ofNat_injective {m n : Nat} (h : Numeral.ofNat m = Numeral.ofNat n) : m = n :=
  toDigits_injective (congrArg Numeral.chars h)

theorem minus_notMem_toDigits (n : Nat) : '-' ∉ Nat.toDigits 10 n := fun h =>
  absurd (toDigits_isDigit n '-' h) (by decide)

theorem Numeral.ofInt_injective {m n : Int} (h : Numeral.ofInt m = Numeral.ofInt n) : m = n := by
  have hchars := congrArg Numeral.chars h
  cases m with
  | ofNat m =>
    cases n with
    | ofNat n => exact congrArg _ (toDigits_injective hchars)
    | negSucc n =>
      refine absurd ?_ (minus_notMem_toDigits m)
      rw [show Nat.toDigits 10 m = '-' :: Nat.toDigits 10 (n + 1) from hchars]
      exact List.mem_cons_self
  | negSucc m =>
    cases n with
    | ofNat n =>
      refine absurd ?_ (minus_notMem_toDigits n)
      rw [show Nat.toDigits 10 n = '-' :: Nat.toDigits 10 (m + 1) from hchars.symm]
      exact List.mem_cons_self
    | negSucc n =>
      have := toDigits_injective (List.cons_inj_right _ |>.mp hchars)
      rw [Nat.succ_injective this]

/-! ### Values -/

mutual

/-- A JSON value. -/
inductive Json where
  | null
  | bool (b : Bool)
  | num (n : Numeral)
  | str (s : String)
  | arr (elems : Elems)
  | obj (members : Members)

inductive Elems where
  | nil
  | cons (head : Json) (rest : Elems)

inductive Members where
  | nil
  | cons (key : String) (value : Json) (rest : Members)

end

def Elems.ofList : List Json → Elems
  | [] => .nil
  | v :: vs => .cons v (ofList vs)

def Members.ofList : List (String × Json) → Members
  | [] => .nil
  | (k, v) :: ms => .cons k v (ofList ms)

/-- The first member under a key. -/
def Members.get? (key : String) : Members → Option Json
  | .nil => none
  | .cons k v rest => if k = key then some v else rest.get? key

def Json.array (vs : List Json) : Json := .arr (.ofList vs)

def Json.object (ms : List (String × Json)) : Json := .obj (.ofList ms)

theorem Elems.ofList_injective {vs ws : List Json} (h : Elems.ofList vs = Elems.ofList ws) :
    vs = ws := by
  induction vs generalizing ws with
  | nil =>
    cases ws with
    | nil => rfl
    | cons w ws => cases h
  | cons v vs ih =>
    cases ws with
    | nil => cases h
    | cons w ws =>
      injection h with hhead hrest
      rw [hhead, ih hrest]

/-! ### Text -/

def hexDigit (n : Nat) : Char :=
  if n < 10 then Char.ofNat (48 + n) else Char.ofNat (87 + n)

/-- One character inside a string literal. -/
def escapeChar (c : Char) : List Char :=
  if c = '"' then ['\\', '"']
  else if c = '\\' then ['\\', '\\']
  else if c.toNat = 8 then ['\\', 'b']
  else if c.toNat = 12 then ['\\', 'f']
  else if c = '\n' then ['\\', 'n']
  else if c = '\r' then ['\\', 'r']
  else if c = '\t' then ['\\', 't']
  else if c.toNat < 32 then ['\\', 'u', '0', '0', hexDigit (c.toNat / 16), hexDigit (c.toNat % 16)]
  else [c]

def escapeChars : List Char → List Char
  | [] => []
  | c :: cs => escapeChar c ++ escapeChars cs

def quote (s : String) : List Char :=
  '"' :: (escapeChars s.toList ++ ['"'])

/-- Separator in front of an element or member: none before the first. -/
def comma (first : Bool) : List Char :=
  if first then [] else [',']

mutual

/-- The text of a value, members in the order given. -/
def render : Json → List Char
  | .null => ['n', 'u', 'l', 'l']
  | .bool true => ['t', 'r', 'u', 'e']
  | .bool false => ['f', 'a', 'l', 's', 'e']
  | .num n => n.chars
  | .str s => quote s
  | .arr elems => '[' :: renderElems true elems
  | .obj members => '{' :: renderMembers true members

/-- The rest of an array, from `first` or a later element to the bracket. -/
def renderElems (first : Bool) : Elems → List Char
  | .nil => [']']
  | .cons v rest => comma first ++ (render v ++ renderElems false rest)

def renderMembers (first : Bool) : Members → List Char
  | .nil => ['}']
  | .cons k v rest =>
    comma first ++ (quote k ++ ':' :: (render v ++ renderMembers false rest))

end

/-! ### Canonical form -/

/-- UTF-16 code units of a key: the order members are written in. -/
def utf16 (s : String) : List Nat :=
  s.toList.flatMap fun c =>
    if c.toNat < 0x10000 then [c.toNat]
    else [0xD800 + (c.toNat - 0x10000) / 0x400, 0xDC00 + (c.toNat - 0x10000) % 0x400]

/-- Put a member in front of the first one whose key is not smaller. -/
def Members.insertSorted (key : String) (value : Json) : Members → Members
  | .nil => .cons key value .nil
  | .cons k v rest =>
    if utf16 k < utf16 key then .cons k v (rest.insertSorted key value)
    else .cons key value (.cons k v rest)

mutual

/-- The same value with the members of every object sorted by key. -/
def canon : Json → Json
  | .arr elems => .arr (canonElems elems)
  | .obj members => .obj (canonMembers members)
  | .null => .null
  | .bool b => .bool b
  | .num n => .num n
  | .str s => .str s

def canonElems : Elems → Elems
  | .nil => .nil
  | .cons v rest => .cons (canon v) (canonElems rest)

def canonMembers : Members → Members
  | .nil => .nil
  | .cons k v rest => (canonMembers rest).insertSorted k (canon v)

end

/-- Canonical text. -/
def jcs (v : Json) : String := String.ofList (render (canon v))

/-! ### One character, one escape -/

/-- Read one character of a string literal back. -/
def unescape : List Char → Option (Char × List Char)
  | '\\' :: 'u' :: _ :: _ :: hi :: lo :: r =>
    let digit c := if Char.toNat c < 58 then Char.toNat c - 48 else Char.toNat c - 87
    some (Char.ofNat (16 * digit hi + digit lo), r)
  | '\\' :: c :: r =>
    some (if c = 'b' then Char.ofNat 8 else if c = 'f' then Char.ofNat 12 else if c = 'n' then '\n'
      else if c = 'r' then '\r' else if c = 't' then '\t' else c, r)
  | c :: r => some (c, r)
  | [] => none

theorem unescape_hex (n : Fin 32) (r : List Char) :
    unescape (['\\', 'u', '0', '0', hexDigit (n / 16), hexDigit (n % 16)] ++ r) =
      some (Char.ofNat n, r) := by
  have key : ∀ n : Fin 32,
      (let digit c := if Char.toNat c < 58 then Char.toNat c - 48 else Char.toNat c - 87
       Char.ofNat (16 * digit (hexDigit (n / 16)) + digit (hexDigit (n % 16)))) = Char.ofNat n := by
    decide
  simp only [List.cons_append, List.nil_append, unescape]
  exact congrArg (fun c => some (c, r)) (key n)

theorem unescape_escapeChar (c : Char) (r : List Char) :
    unescape (escapeChar c ++ r) = some (c, r) := by
  unfold escapeChar
  split_ifs with hq hb h8 h12 hn hr ht hlow
  · subst hq; rfl
  · subst hb; rfl
  · have : c = Char.ofNat 8 := by rw [← h8, Char.ofNat_toNat]
    subst this; rfl
  · have : c = Char.ofNat 12 := by rw [← h12, Char.ofNat_toNat]
    subst this; rfl
  · subst hn; rfl
  · subst hr; rfl
  · subst ht; rfl
  · have := unescape_hex ⟨c.toNat, hlow⟩ r
    simpa using this
  · -- a plain character is not the escape mark, so the last clause reads it
    simp only [List.cons_append, List.nil_append]
    rw [unescape.eq_def]
    split <;> simp_all

theorem escapeChar_append_inj {c d : Char} {r r' : List Char}
    (h : escapeChar c ++ r = escapeChar d ++ r') : c = d ∧ r = r' := by
  have := (unescape_escapeChar c r).symm.trans (h ▸ unescape_escapeChar d r')
  simpa using this

theorem escapeChar_ne_quote (c : Char) (r r' : List Char) : escapeChar c ++ r ≠ '"' :: r' := by
  unfold escapeChar
  split_ifs <;> simp_all

/-- String literals are a prefix code. -/
theorem escapeChars_append_inj {cs ds : List Char} {r r' : List Char}
    (h : escapeChars cs ++ '"' :: r = escapeChars ds ++ '"' :: r') : cs = ds ∧ r = r' := by
  induction cs generalizing ds with
  | nil =>
    cases ds with
    | nil => exact ⟨rfl, by simpa [escapeChars] using h⟩
    | cons d ds =>
      simp only [escapeChars, List.nil_append, List.append_assoc] at h
      exact absurd h.symm (escapeChar_ne_quote d _ _)
  | cons c cs ih =>
    cases ds with
    | nil =>
      simp only [escapeChars, List.nil_append, List.append_assoc] at h
      exact absurd h (escapeChar_ne_quote c _ _)
    | cons d ds =>
      simp only [escapeChars, List.append_assoc] at h
      obtain ⟨rfl, htail⟩ := escapeChar_append_inj h
      obtain ⟨hcs, hr⟩ := ih htail
      exact ⟨by rw [hcs], hr⟩

theorem quote_append_inj {s t : String} {r r' : List Char}
    (h : quote s ++ r = quote t ++ r') : s = t ∧ r = r' := by
  simp only [quote, List.cons_append, List.append_assoc, List.nil_append, List.cons.injEq,
    true_and] at h
  obtain ⟨hst, hr⟩ := escapeChars_append_inj h
  exact ⟨String.toList_inj.mp hst, hr⟩

/-! ### Values are a prefix code -/

/-- A continuation that cannot be read as more digits of a number. -/
def Delimited (r : List Char) : Prop :=
  ∀ c ∈ r.head?, isNumeralChar c = false

theorem delimited_nil : Delimited [] := by simp [Delimited]

theorem delimited_cons {c : Char} (h : isNumeralChar c = false) (r : List Char) :
    Delimited (c :: r) := by
  simpa [Delimited] using h

theorem takeWhile_numeral (n : Numeral) {r : List Char} (hr : Delimited r) :
    (n.chars ++ r).takeWhile isNumeralChar = n.chars := by
  rw [List.takeWhile_append_of_pos n.wellFormed]
  cases r with
  | nil => simp
  | cons c r => simp [hr c (by simp)]

theorem numeral_append_inj {m n : Numeral} {r r' : List Char} (hr : Delimited r)
    (hr' : Delimited r') (h : m.chars ++ r = n.chars ++ r') : m = n ∧ r = r' := by
  have hchars : m.chars = n.chars := by
    rw [← takeWhile_numeral m hr, h, takeWhile_numeral n hr']
  refine ⟨Numeral.ext hchars, ?_⟩
  rw [hchars] at h
  exact List.append_cancel_left h

/-- Which kind of value a text starting with this character is. -/
def kindOfChar (c : Char) : Nat :=
  if c = 'n' then 0 else if c = 't' then 1 else if c = 'f' then 2 else if c = '"' then 3
  else if c = '[' then 4 else if c = '{' then 5 else if c = ']' then 7 else 6

def Json.kind : Json → Nat
  | .null => 0
  | .bool true => 1
  | .bool false => 2
  | .str _ => 3
  | .arr _ => 4
  | .obj _ => 5
  | .num _ => 6

theorem kindOfChar_numeral {c : Char} (h : isNumeralChar c = true) : kindOfChar c = 6 := by
  unfold kindOfChar
  split_ifs <;> subst_vars <;> first | rfl | exact absurd h (by decide)

/-- The first character tells the kind of a value. -/
theorem render_head (v : Json) : ∃ c rest, render v = c :: rest ∧ kindOfChar c = v.kind := by
  match v with
  | .null => exact ⟨_, _, rfl, rfl⟩
  | .bool true => exact ⟨_, _, rfl, rfl⟩
  | .bool false => exact ⟨_, _, rfl, rfl⟩
  | .str s => exact ⟨_, _, rfl, rfl⟩
  | .arr elems => exact ⟨_, _, rfl, rfl⟩
  | .obj members => exact ⟨_, _, rfl, rfl⟩
  | .num n =>
    obtain ⟨c, rest, hc⟩ := List.exists_cons_of_ne_nil n.nonempty
    exact ⟨c, rest, hc, kindOfChar_numeral (n.wellFormed c (hc ▸ List.mem_cons_self))⟩

theorem kind_eq_of_render_append {v w : Json} {r r' : List Char}
    (h : render v ++ r = render w ++ r') : v.kind = w.kind := by
  obtain ⟨c, vs, hv, hcv⟩ := render_head v
  obtain ⟨d, ws, hw, hdw⟩ := render_head w
  rw [hv, hw, List.cons_append, List.cons_append] at h
  rw [← hcv, ← hdw, (List.cons.inj h).1]

theorem delimited_renderElems (e : Elems) (r : List Char) :
    Delimited (renderElems false e ++ r) := by
  cases e with
  | nil => exact delimited_cons rfl _
  | cons v rest => exact delimited_cons rfl _

theorem delimited_renderMembers (m : Members) (r : List Char) :
    Delimited (renderMembers false m ++ r) := by
  cases m with
  | nil => exact delimited_cons rfl _
  | cons k v rest => exact delimited_cons rfl _

/-- A value never starts with the bracket that closes an array. -/
theorem render_ne_bracket (v : Json) (r r' : List Char) : render v ++ r ≠ ']' :: r' := by
  intro h
  obtain ⟨c, vs, hv, hc⟩ := render_head v
  rw [hv, List.cons_append] at h
  rw [(List.cons.inj h).1] at hc
  cases v with
  | bool b => cases b <;> exact absurd hc (by decide)
  | _ => exact absurd hc (by simp [Json.kind, kindOfChar])

theorem comma_render_ne_bracket (first : Bool) (v : Json) (r r' : List Char) :
    comma first ++ (render v ++ r) ≠ ']' :: r' := by
  cases first with
  | false => simp [comma]
  | true => exact render_ne_bracket v r r'

theorem comma_quote_ne_brace (first : Bool) (k : String) (r r' : List Char) :
    comma first ++ (quote k ++ r) ≠ '}' :: r' := by
  cases first <;> simp [comma, quote]

mutual

/-- **Canonical text is a prefix code.** Texts of two values, each followed by
something that is not more of a number, agree only when the values do. -/
theorem render_append_inj : (v w : Json) → {r r' : List Char} → Delimited r → Delimited r' →
    render v ++ r = render w ++ r' → v = w ∧ r = r'
  | .num m, w, r, r', hr, hr', h => by
    have hkind := kind_eq_of_render_append h
    cases w with
    | num n =>
      obtain ⟨rfl, hrest⟩ := numeral_append_inj hr hr' h
      exact ⟨rfl, hrest⟩
    | bool b => cases b <;> simp [Json.kind] at hkind
    | _ => simp [Json.kind] at hkind
  | .str s, w, r, r', _, _, h => by
    have hkind := kind_eq_of_render_append h
    cases w with
    | str t =>
      obtain ⟨rfl, hrest⟩ := quote_append_inj h
      exact ⟨rfl, hrest⟩
    | bool b => cases b <;> simp [Json.kind] at hkind
    | _ => simp [Json.kind] at hkind
  | .arr e, w, r, r', _, _, h => by
    have hkind := kind_eq_of_render_append h
    cases w with
    | arr f =>
      simp only [render, List.cons_append, List.cons.injEq, true_and] at h
      obtain ⟨rfl, hrest⟩ := renderElems_append_inj true e f h
      exact ⟨rfl, hrest⟩
    | bool b => cases b <;> simp [Json.kind] at hkind
    | _ => simp [Json.kind] at hkind
  | .obj m, w, r, r', _, _, h => by
    have hkind := kind_eq_of_render_append h
    cases w with
    | obj n =>
      simp only [render, List.cons_append, List.cons.injEq, true_and] at h
      obtain ⟨rfl, hrest⟩ := renderMembers_append_inj true m n h
      exact ⟨rfl, hrest⟩
    | bool b => cases b <;> simp [Json.kind] at hkind
    | _ => simp [Json.kind] at hkind
  | .null, w, r, r', _, _, h => by
    have hkind := kind_eq_of_render_append h
    cases w with
    | null => exact ⟨rfl, List.append_cancel_left h⟩
    | bool b => cases b <;> simp [Json.kind] at hkind
    | _ => simp [Json.kind] at hkind
  | .bool b, w, r, r', _, _, h => by
    have hkind := kind_eq_of_render_append h
    cases w with
    | bool c =>
      cases b <;> cases c <;> first | exact ⟨rfl, List.append_cancel_left h⟩ | cases hkind
    | _ => cases b <;> simp [Json.kind] at hkind

theorem renderElems_append_inj (first : Bool) : (e f : Elems) → {r r' : List Char} →
    renderElems first e ++ r = renderElems first f ++ r' → e = f ∧ r = r'
  | .nil, .nil, r, r', h => ⟨rfl, List.append_cancel_left h⟩
  | .nil, .cons w f, r, r', h => by
    simp only [renderElems, List.append_assoc, List.cons_append, List.nil_append] at h
    exact absurd h.symm (comma_render_ne_bracket first w _ _)
  | .cons v e, .nil, r, r', h => by
    simp only [renderElems, List.append_assoc, List.cons_append, List.nil_append] at h
    exact absurd h (comma_render_ne_bracket first v _ _)
  | .cons v e, .cons w f, r, r', h => by
    simp only [renderElems, List.append_assoc] at h
    obtain ⟨rfl, htail⟩ := render_append_inj v w (delimited_renderElems e r)
      (delimited_renderElems f r') (List.append_cancel_left h)
    obtain ⟨rfl, hrest⟩ := renderElems_append_inj false e f htail
    exact ⟨rfl, hrest⟩

theorem renderMembers_append_inj (first : Bool) : (m n : Members) → {r r' : List Char} →
    renderMembers first m ++ r = renderMembers first n ++ r' → m = n ∧ r = r'
  | .nil, .nil, r, r', h => ⟨rfl, List.append_cancel_left h⟩
  | .nil, .cons k w n, r, r', h => by
    simp only [renderMembers, List.append_assoc, List.cons_append, List.nil_append] at h
    exact absurd h.symm (comma_quote_ne_brace first k _ _)
  | .cons k v m, .nil, r, r', h => by
    simp only [renderMembers, List.append_assoc, List.cons_append, List.nil_append] at h
    exact absurd h (comma_quote_ne_brace first k _ _)
  | .cons k v m, .cons l w n, r, r', h => by
    simp only [renderMembers, List.append_assoc, List.cons_append] at h
    obtain ⟨rfl, hcolon⟩ := quote_append_inj (List.append_cancel_left h)
    obtain ⟨rfl, htail⟩ := render_append_inj v w (delimited_renderMembers m r)
      (delimited_renderMembers n r') (List.cons.inj hcolon).2
    obtain ⟨rfl, hrest⟩ := renderMembers_append_inj false m n htail
    exact ⟨rfl, hrest⟩

end

theorem render_injective {v w : Json} (h : render v = render w) : v = w :=
  (render_append_inj v w delimited_nil delimited_nil (by simpa using h)).1

/-- **Equal canonical texts** come from values equal up to the order of members. -/
theorem canon_eq_of_jcs_eq {v w : Json} (h : jcs v = jcs w) : canon v = canon w :=
  render_injective (String.ofList_injective h)

/-! ### Reading members of a sorted object -/

theorem get_insertSorted (key k : String) (v : Json) : (ms : Members) →
    (ms.insertSorted key v).get? k = if key = k then some v else ms.get? k
  | .nil => rfl
  | .cons l w rest => by
    simp only [Members.insertSorted]
    split_ifs with hlt hkey hkey
    · -- the member moved past has a smaller key, hence another one
      have hne : l ≠ k := by
        rintro rfl
        exact lt_irrefl _ (hkey ▸ hlt)
      rw [Members.get?, if_neg hne, get_insertSorted key k v rest, if_pos hkey]
    · rw [Members.get?, Members.get?, get_insertSorted key k v rest, if_neg hkey]
    · simp [Members.get?, hkey]
    · simp [Members.get?, hkey]

theorem get_canonMembers (k : String) : (ms : Members) →
    (canonMembers ms).get? k = (ms.get? k).map canon
  | .nil => rfl
  | .cons l w rest => by
    simp only [canonMembers, get_insertSorted, Members.get?]
    split_ifs
    · rfl
    · exact get_canonMembers k rest

theorem canonElems_ofList (vs : List Json) :
    canonElems (.ofList vs) = .ofList (vs.map canon) := by
  induction vs with
  | nil => rfl
  | cons v vs ih => simp only [Elems.ofList, canonElems, List.map_cons, ih]

/-- Two objects with the same canonical form agree on every member. -/
theorem canon_member_eq {ms ns : List (String × Json)}
    (h : canon (.object ms) = canon (.object ns)) (k : String) :
    ((Members.ofList ms).get? k).map canon = ((Members.ofList ns).get? k).map canon := by
  simp only [Json.object, canon, Json.obj.injEq] at h
  rw [← get_canonMembers, ← get_canonMembers, h]

/-- Two arrays with the same canonical form agree element by element. -/
theorem canon_array_eq {vs ws : List Json} (h : canon (.array vs) = canon (.array ws)) :
    vs.map canon = ws.map canon := by
  simp only [Json.array, canon, Json.arr.injEq, canonElems_ofList] at h
  exact Elems.ofList_injective h

end Softfig.Lib.Jcs
