import Mathlib.Data.List.DropRight
import Softfig.Doc.Managed

/-!
Writing managed regions: `upsert` and `remove`, and what they do to the regions of a document.

A document is read here without line numbers: the regions of a list of lines, each with the lines
between its markers, and the tags that are opened but never closed. Both read a prefix alone as
they read it in the document, so long as what follows closes nothing that the prefix left open.

- `regionsOf_append`, `dangling_append`: the regions of two texts put together;
- `locate_some`: the lines around the first region of a tag;
- `scans_upsert`, `scans_remove`: an edit changes the one region, and no other;
- `regionBody_upsert`: the body written is the body read back.
-/

namespace Softfig.Doc

open Softfig.Queue (isWhitespace trimStart trim)

/-! ### Edits -/

def openMarker (tag : Text) : Text := "<!-- softfig:".toList ++ tag ++ " -->".toList

/-- The first region of a tag. -/
def locate (ls : List Text) (tag : Text) : Option Span := (spansOf ls).find? fun s => s.tag = tag

def regionBody (content tag : Text) : Option Text :=
  (locate (lines content) tag).map fun s =>
    join (trimBlank (slice (lines content) (s.openLine + 1) s.closeLine))

/-- `trim_end_matches('\n')` -/
def trimNewlines (text : Text) : Text := text.rdropWhile (· = '\n')

/-- Replace the body of a region, or append the region. -/
def upsert (content tag body : Text) : Text :=
  match locate (lines content) tag with
  | some s =>
    join ((lines content).take (s.openLine + 1) ++ [[]] ++ lines body ++ [[]] ++
      (lines content).drop s.closeLine)
  | none =>
    let core := trimNewlines content
    (if core = [] then [] else core ++ "\n\n".toList) ++ openMarker tag ++ "\n\n".toList ++ body ++
      "\n\n".toList ++ closeMarker tag ++ ['\n']

/-- Drop a region with a blank line before it, or else after it. -/
def remove (content tag : Text) : Text :=
  let ls := lines content
  match locate ls tag with
  | none => content
  | some s =>
    let blank (i : Nat) : Bool := (ls[i]?.getD []).all isWhitespace
    if 0 < s.openLine ∧ blank (s.openLine - 1) then
      join (ls.take (s.openLine - 1) ++ ls.drop (s.closeLine + 1))
    else if s.closeLine + 1 < ls.length ∧ blank (s.closeLine + 1) then
      join (ls.take s.openLine ++ ls.drop (s.closeLine + 2))
    else join (ls.take s.openLine ++ ls.drop (s.closeLine + 1))

/-! ### Lines -/

theorem lines_nil : lines [] = [[]] := rfl

theorem lines_newline (text : Text) : lines ('\n' :: text) = [] :: lines text := lines_append [] text

theorem lines_line {l : Text} (h : '\n' ∉ l) : lines l = [l] := List.splitOn_eq_singleton h

/-! ### Marked lines -/

/-- The lines with whether each stands in a fence. -/
def marked (inFence : Bool) (ls : List Text) : List (Text × Bool) := ls.zip (fenceMask inFence ls)

@[simp]
theorem marked_nil (inFence : Bool) : marked inFence [] = [] := rfl

theorem marked_cons (inFence : Bool) (l : Text) (ls : List Text) :
    marked inFence (l :: ls) =
      (l, isFence l || inFence) :: marked (if isFence l then !inFence else inFence) ls := by
  rw [marked, fenceMask]
  split
  · rename_i hfence
    rw [hfence]
    rfl
  · rename_i hfence
    rw [Bool.not_eq_true] at hfence
    rw [hfence]
    rfl

theorem marked_append (inFence : Bool) (ls ls' : List Text) :
    marked inFence (ls ++ ls') = marked inFence ls ++ marked (fenceAfter inFence ls) ls' := by
  induction ls generalizing inFence with
  | nil => rfl
  | cons l ls ih =>
    rw [List.cons_append, marked_cons, marked_cons, ih, fenceAfter_cons]
    rfl

@[simp]
theorem marked_map_fst (inFence : Bool) (ls : List Text) :
    (marked inFence ls).map Prod.fst = ls := by
  induction ls generalizing inFence with
  | nil => rfl
  | cons l ls ih => rw [marked_cons, List.map_cons, ih]

@[simp]
theorem marked_length (inFence : Bool) (ls : List Text) : (marked inFence ls).length = ls.length := by
  rw [← List.length_map Prod.fst, marked_map_fst]

/-! ### Regions without line numbers -/

/-- The line closes a region of the tag. -/
def closesAt (tag : Text) (p : Text × Bool) : Bool := !p.2 && trim p.1 = closeMarker tag

theorem spansFrom_closed {i k : Nat} {l tag : Text} {fenced : Bool} {rest : List (Text × Bool)}
    (hopen : openAt fenced l = some tag) (hclose : rest.findIdx? (closesAt tag) = some k) :
    spansFrom i 0 ((l, fenced) :: rest) =
      ⟨tag, i, i + 1 + k⟩ :: spansFrom (i + 1) (k + 1) rest := by
  unfold closesAt at hclose
  simp only [spansFrom, hopen, hclose]

theorem spansFrom_unclosed {i : Nat} {l tag : Text} {fenced : Bool} {rest : List (Text × Bool)}
    (hopen : openAt fenced l = some tag) (hclose : rest.findIdx? (closesAt tag) = none) :
    spansFrom i 0 ((l, fenced) :: rest) = spansFrom (i + 1) 0 rest := by
  unfold closesAt at hclose
  simp only [spansFrom, hopen, hclose]

/-- The regions of marked lines after `skip` of them, each with its lines. -/
def regionsFrom : Nat → List (Text × Bool) → List (Text × List Text)
  | _, [] => []
  | skip + 1, _ :: rest => regionsFrom skip rest
  | 0, (l, fenced) :: rest =>
    match openAt fenced l with
    | none => regionsFrom 0 rest
    | some tag =>
      match rest.findIdx? (closesAt tag) with
      | none => regionsFrom 0 rest
      | some k => (tag, (rest.take k).map Prod.fst) :: regionsFrom (k + 1) rest

/-- The tags that marked lines open and do not close. -/
def danglingFrom : Nat → List (Text × Bool) → List Text
  | _, [] => []
  | skip + 1, _ :: rest => danglingFrom skip rest
  | 0, (l, fenced) :: rest =>
    match openAt fenced l with
    | none => danglingFrom 0 rest
    | some tag =>
      match rest.findIdx? (closesAt tag) with
      | none => tag :: danglingFrom 0 rest
      | some k => danglingFrom (k + 1) rest

def regionsOf (ls : List Text) : List (Text × List Text) := regionsFrom 0 (marked false ls)

def dangling (ls : List Text) : List Text := danglingFrom 0 (marked false ls)

/-- Some line closes a region of the tag. -/
def Closes (ls : List Text) (tag : Text) : Prop := ∃ p ∈ marked false ls, closesAt tag p = true

/-- What the spans behind a line hold is the same without it. -/
theorem spansFrom_hold (i skip : Nat) (p : Text × Bool) (rest : List (Text × Bool)) :
    ((spansFrom (i + 1) skip rest).map fun s =>
        (s.tag, slice (rest.map Prod.fst) (s.openLine + 1 - (i + 1)) (s.closeLine - (i + 1)))) =
      (spansFrom (i + 1) skip rest).map fun s =>
        (s.tag, slice ((p :: rest).map Prod.fst) (s.openLine + 1 - i) (s.closeLine - i)) := by
  refine List.map_congr_left fun s hs => ?_
  obtain ⟨hle, hlt, -, -⟩ := mem_spansFrom hs
  have hopen : s.openLine + 1 - i = s.openLine + 1 - (i + 1) + 1 := by omega
  have hclose : s.closeLine - i = s.closeLine - (i + 1) + 1 := by omega
  rw [slice, slice, List.map_cons, hopen, hclose, List.take_succ_cons, List.drop_succ_cons]

theorem regionsFrom_eq (i skip : Nat) (pairs : List (Text × Bool)) :
    regionsFrom skip pairs =
      (spansFrom i skip pairs).map fun s =>
        (s.tag, slice (pairs.map Prod.fst) (s.openLine + 1 - i) (s.closeLine - i)) := by
  induction pairs generalizing i skip with
  | nil => rfl
  | cons p rest ih =>
    obtain ⟨l, fenced⟩ := p
    cases skip with
    | succ skip => exact (ih _ _).trans (spansFrom_hold ..)
    | zero =>
      rw [regionsFrom, spansFrom]
      cases openAt fenced l with
      | none => exact (ih _ _).trans (spansFrom_hold ..)
      | some tag =>
        show (match rest.findIdx? (closesAt tag) with
          | none => regionsFrom 0 rest
          | some k => (tag, (rest.take k).map Prod.fst) :: regionsFrom (k + 1) rest) = List.map _
            (match rest.findIdx? (closesAt tag) with
              | none => spansFrom (i + 1) 0 rest
              | some k => ⟨tag, i, i + 1 + k⟩ :: spansFrom (i + 1) (k + 1) rest)
        cases rest.findIdx? (closesAt tag) with
        | none => exact (ih _ _).trans (spansFrom_hold ..)
        | some k =>
          refine congrArg₂ List.cons (Prod.ext rfl ?_) ((ih _ _).trans (spansFrom_hold ..))
          have hopen : i + 1 - i = 1 := by omega
          have hclose : i + 1 + k - i = k + 1 := by omega
          show (rest.take k).map Prod.fst = slice (l :: rest.map Prod.fst) (i + 1 - i) (i + 1 + k - i)
          rw [slice, hopen, hclose, List.take_succ_cons, List.drop_succ_cons, List.drop_zero,
            List.map_take]

/-- The regions of the lines and of what they hold are those of the document. -/
theorem regions_eq (content : Text) :
    regions content = (regionsOf (lines content)).map fun r => (r.1, join (trimBlank r.2)) := by
  rw [regionsOf, regionsFrom_eq 0, List.map_map, marked_map_fst]
  rfl

/-! ### Texts put together -/

section append

variable {pairs rest : List (Text × Bool)} {ls ls' : List Text} {skip : Nat}

theorem findIdx?_closes {tag : Text} (h : ∀ p ∈ rest, closesAt tag p = false) :
    rest.findIdx? (closesAt tag) = none :=
  List.findIdx?_eq_none_iff.mpr h

/-- A prefix is scanned as it is alone, where what follows closes nothing it left open. -/
theorem scan_append (hskip : skip ≤ pairs.length)
    (h : ∀ tag ∈ danglingFrom skip pairs, ∀ p ∈ rest, closesAt tag p = false) :
    regionsFrom skip (pairs ++ rest) = regionsFrom skip pairs ++ regionsFrom 0 rest ∧
      danglingFrom skip (pairs ++ rest) = danglingFrom skip pairs ++ danglingFrom 0 rest := by
  induction pairs generalizing skip with
  | nil =>
    obtain rfl := Nat.le_zero.mp hskip
    exact ⟨rfl, rfl⟩
  | cons p pairs ih =>
    obtain ⟨l, fenced⟩ := p
    cases skip with
    | succ skip => exact ih (Nat.le_of_succ_le_succ hskip) h
    | zero =>
      simp only [List.cons_append, regionsFrom, danglingFrom] at h ⊢
      cases hopen : openAt fenced l with
      | none =>
        simp only [hopen] at h
        exact ih (Nat.zero_le _) h
      | some tag =>
        simp only [hopen] at h
        simp only [List.findIdx?_append]
        cases hfound : pairs.findIdx? (closesAt tag) with
        | none =>
          simp only [hfound, List.forall_mem_cons] at h
          simp only [Option.none_or, findIdx?_closes h.1, Option.map_none]
          obtain ⟨hregions, hdangling⟩ := ih (Nat.zero_le _) h.2
          exact ⟨hregions, by rw [hdangling, List.cons_append]⟩
        | some k =>
          simp only [hfound] at h
          have hk := (List.findIdx?_eq_some_iff_getElem.mp hfound).1
          obtain ⟨hregions, hdangling⟩ := ih hk h
          simp only [Option.some_or]
          rw [List.take_append_of_le_length hk.le, hregions, hdangling]
          exact ⟨rfl, rfl⟩

theorem spans_append (i : Nat) (hskip : skip ≤ pairs.length)
    (h : ∀ tag ∈ danglingFrom skip pairs, ∀ p ∈ rest, closesAt tag p = false) :
    spansFrom i skip (pairs ++ rest) =
      spansFrom i skip pairs ++ spansFrom (i + pairs.length) 0 rest := by
  induction pairs generalizing i skip with
  | nil =>
    obtain rfl := Nat.le_zero.mp hskip
    rfl
  | cons p pairs ih =>
    obtain ⟨l, fenced⟩ := p
    have hlength : i + ((l, fenced) :: pairs).length = i + 1 + pairs.length := by
      rw [List.length_cons]
      omega
    rw [hlength]
    cases skip with
    | succ skip => exact ih (i + 1) (Nat.le_of_succ_le_succ hskip) h
    | zero =>
      simp only [List.cons_append, spansFrom, danglingFrom] at h ⊢
      cases hopen : openAt fenced l with
      | none =>
        simp only [hopen] at h
        exact ih (i + 1) (Nat.zero_le _) h
      | some tag =>
        simp only [hopen] at h
        change (match (pairs ++ rest).findIdx? (closesAt tag) with
          | none => spansFrom (i + 1) 0 (pairs ++ rest)
          | some k => ⟨tag, i, i + 1 + k⟩ :: spansFrom (i + 1) (k + 1) (pairs ++ rest)) =
            (match pairs.findIdx? (closesAt tag) with
              | none => spansFrom (i + 1) 0 pairs
              | some k => ⟨tag, i, i + 1 + k⟩ :: spansFrom (i + 1) (k + 1) pairs) ++ _
        rw [List.findIdx?_append]
        cases hfound : pairs.findIdx? (closesAt tag) with
        | none =>
          simp only [hfound, List.forall_mem_cons] at h
          simp only [Option.none_or, findIdx?_closes h.1, Option.map_none]
          exact ih (i + 1) (Nat.zero_le _) h.2
        | some k =>
          simp only [hfound] at h
          have hk := (List.findIdx?_eq_some_iff_getElem.mp hfound).1
          exact congrArg _ (ih (i + 1) hk h)

theorem marked_closed (h : fenceAfter false ls = false) :
    marked false (ls ++ ls') = marked false ls ++ marked false ls' := by
  rw [marked_append, h]

theorem regionsOf_append (hfence : fenceAfter false ls = false)
    (h : ∀ tag ∈ dangling ls, ¬Closes ls' tag) :
    regionsOf (ls ++ ls') = regionsOf ls ++ regionsOf ls' := by
  rw [regionsOf, marked_closed hfence]
  exact (scan_append (Nat.zero_le _) fun tag htag p hp =>
    Bool.eq_false_iff.mpr fun hcloses => h tag htag ⟨p, hp, hcloses⟩).1

theorem dangling_append (hfence : fenceAfter false ls = false)
    (h : ∀ tag ∈ dangling ls, ¬Closes ls' tag) :
    dangling (ls ++ ls') = dangling ls ++ dangling ls' := by
  rw [dangling, marked_closed hfence]
  exact (scan_append (Nat.zero_le _) fun tag htag p hp =>
    Bool.eq_false_iff.mpr fun hcloses => h tag htag ⟨p, hp, hcloses⟩).2

theorem closes_append (hfence : fenceAfter false ls = false) {tag : Text} :
    Closes (ls ++ ls') tag ↔ Closes ls tag ∨ Closes ls' tag := by
  simp only [Closes, marked_closed hfence, List.mem_append, or_and_right, exists_or]

end append

/-! ### Plain lines -/

/-- The line is no fence, opens no region and closes none. -/
structure Plain (l : Text) : Prop where
  fence : isFence l = false
  opens : openTag l = none
  closes : ∀ tag, trim l ≠ closeMarker tag

/-- The line begins with none of the characters that fences and markers begin with. -/
def plainStart (l : Text) : Bool :=
  match trimStart l with
  | [] => true
  | c :: _ => c ≠ '<' && c ≠ '`' && c ≠ '~'

theorem trim_prefix_trimStart (l : Text) : trim l <+: trimStart l := by
  have hsuffix := List.dropWhile_suffix isWhitespace (l := (trimStart l).reverse)
  rw [← List.reverse_prefix, List.reverse_reverse] at hsuffix
  exact hsuffix

theorem trim_trim (l : Text) : trim (trim l) = trim l := by
  have hback : trimStart (trim l).reverse = (trim l).reverse := by
    rw [trim, List.reverse_reverse]
    exact List.dropWhile_idempotent _ _
  have hstart : trimStart (trim l) = trim l := by
    cases htrim : trim l with
    | nil => rfl
    | cons c k =>
      obtain ⟨more, hmore⟩ := trim_prefix_trimStart l
      rw [htrim] at hmore
      have hc := List.head?_dropWhile_not isWhitespace l
      rw [show l.dropWhile isWhitespace = c :: (k ++ more) from hmore.symm] at hc
      rw [trimStart, List.dropWhile_cons_of_neg (by simpa using hc)]
  rw [trim, hstart, hback, List.reverse_reverse]

theorem mem_of_mem_trim {l : Text} {c : Char} (h : c ∈ trim l) : c ∈ l := by
  have hlead := trim_prefix_trimStart l
  exact (List.dropWhile_sublist _).mem (hlead.subset h)

theorem head_of_isPrefixOf {mark text : Text} {c : Char} (h : (c :: mark).isPrefixOf text = true) :
    text.head? = some c := by
  obtain ⟨rest, rfl⟩ := List.isPrefixOf_iff_prefix.mp h
  rfl

theorem Plain.of_start {l : Text} (h : plainStart l = true) : Plain l := by
  have hhead : ∀ c, (trimStart l).head? = some c → c ≠ '<' ∧ c ≠ '`' ∧ c ≠ '~' := by
    intro c hc
    unfold plainStart at h
    split at h
    · rename_i hnil
      rw [hnil] at hc
      cases hc
    · rename_i d rest hcons
      rw [hcons] at hc
      obtain rfl := Option.some.inj hc
      simpa [and_assoc] using h
  have hmarker : ∀ rest, trim l ≠ '<' :: rest := by
    intro rest heq
    obtain ⟨more, hmore⟩ := trim_prefix_trimStart l
    rw [heq] at hmore
    exact (hhead '<' (by rw [← hmore]; rfl)).1 rfl
  constructor
  · rw [isFence, Bool.or_eq_false_iff]
    constructor
    · exact Bool.eq_false_iff.mpr fun hfence => (hhead _ (head_of_isPrefixOf hfence)).2.1 rfl
    · exact Bool.eq_false_iff.mpr fun hfence => (hhead _ (head_of_isPrefixOf hfence)).2.2 rfl
  · unfold openTag
    cases hdrop : (trim l).dropPrefix? "<!-- softfig:".toList with
    | none => rfl
    | some rest =>
      obtain ⟨mark, hmark, heq⟩ := List.dropPrefix?_eq_some_iff.mp hdrop
      rw [eq_of_beq heq] at hmark
      exact absurd hmark (hmarker _)
  · intro tag
    exact hmarker _

/-! ### Markers -/

/-- A tag as an open marker gives it back. -/
structure IsTag (tag : Text) : Prop where
  nonempty : tag ≠ []
  trimmed : trim tag = tag
  line : '\n' ∉ tag

theorem newline_notMem_marker {mark tag : Text} (hmark : '\n' ∉ mark) (htag : '\n' ∉ tag) :
    '\n' ∉ mark ++ tag ++ " -->".toList := by
  intro h
  rcases List.mem_append.mp h with h | h
  · rcases List.mem_append.mp h with h | h
    · exact hmark h
    · exact htag h
  · exact absurd h (by decide)

/-- Marker lines are lines. -/
theorem IsTag.newline_notMem {tag : Text} (h : IsTag tag) :
    '\n' ∉ openMarker tag ∧ '\n' ∉ closeMarker tag :=
  ⟨newline_notMem_marker (by decide) h.line, newline_notMem_marker (by decide) h.line⟩

theorem trim_marker {l : Text} (hstart : l.head? = some '<') (hend : l.getLast? = some '>') :
    trim l = l := by
  obtain ⟨k, rfl⟩ := List.head?_eq_some_iff.mp hstart
  exact trim_of_ends rfl (by decide) hend (by decide)

theorem isFence_of_trim {l k : Text} (h : trim l = '<' :: k) : isFence l = false := by
  obtain ⟨more, hmore⟩ := trim_prefix_trimStart l
  rw [h] at hmore
  rw [isFence, ← hmore]
  rfl

theorem getLast?_marker (l : Text) : (l ++ " -->".toList).getLast? = some '>' := by
  have hend : " -->".toList.getLast? = some '>' := by decide
  exact List.getLast?_append.trans (congrArg (Option.or · l.getLast?) hend)

theorem trim_openMarker (tag : Text) : trim (openMarker tag) = openMarker tag := by
  exact trim_marker rfl (getLast?_marker _)

theorem openTag_openMarker {tag : Text} (h : IsTag tag) : openTag (openMarker tag) = some tag := by
  have htrim : trim (openMarker tag) = "<!-- softfig:".toList ++ (tag ++ " -->".toList) :=
    (trim_openMarker tag).trans (List.append_assoc _ _ _)
  have hend : tag ++ " -->".toList = (tag ++ [' ']) ++ "-->".toList := by simp
  have hsuffix : ((tag ++ [' ']) ++ "-->".toList).dropSuffix? "-->".toList = some (tag ++ [' ']) :=
    List.dropSuffix?_eq_some_iff.mpr ⟨_, rfl, BEq.rfl⟩
  have htag : trim (tag ++ [' ']) = tag := (trim_concat (by decide)).trans h.trimmed
  rw [openTag, htrim, List.dropPrefix?_append_of_beq _ BEq.rfl]
  simp only
  rw [hend, hsuffix]
  simp only [htag, if_neg h.nonempty]

theorem trim_closeMarker (tag : Text) : trim (closeMarker tag) = closeMarker tag :=
  trim_marker rfl (getLast?_marker _)

theorem closeMarker_injective {tag tag' : Text} (h : closeMarker tag = closeMarker tag') :
    tag = tag' :=
  List.append_cancel_left (List.append_cancel_right h)

theorem isFence_of_openTag {l tag : Text} (h : openTag l = some tag) : isFence l = false := by
  unfold openTag at h
  cases hdrop : (trim l).dropPrefix? "<!-- softfig:".toList with
  | none =>
    rw [hdrop] at h
    cases h
  | some rest =>
    obtain ⟨mark, hmark, heq⟩ := List.dropPrefix?_eq_some_iff.mp hdrop
    rw [eq_of_beq heq] at hmark
    exact isFence_of_trim hmark

theorem openTag_of_closes {l tag : Text} (h : trim l = closeMarker tag) : openTag l = none := by
  unfold openTag
  rw [h]
  rfl

theorem closes_ne_of_openTag {l tag : Text} (h : openTag l = some tag) (tag' : Text) :
    trim l ≠ closeMarker tag' := by
  intro heq
  rw [openTag_of_closes heq] at h
  cases h

/-! ### Blocks -/

section blocks

variable {ls inner post : List Text} {opener closer tag : Text}

theorem fenceAfter_plain (h : ∀ l ∈ ls, Plain l) (inFence : Bool) : fenceAfter inFence ls = inFence := by
  induction ls with
  | nil => rfl
  | cons l ls ih =>
    rw [fenceAfter_cons, (h l List.mem_cons_self).fence]
    exact ih fun l hl => h l (List.mem_cons_of_mem _ hl)

theorem marked_plain (h : ∀ l ∈ ls, Plain l) : ∀ p ∈ marked false ls, p.2 = false ∧ Plain p.1 := by
  induction ls with
  | nil => exact fun p hp => absurd hp List.not_mem_nil
  | cons l ls ih =>
    have hl := h l List.mem_cons_self
    rw [marked_cons, hl.fence]
    intro p hp
    rcases List.mem_cons.mp hp with rfl | hp
    · exact ⟨rfl, hl⟩
    · exact ih (fun l hl => h l (List.mem_cons_of_mem _ hl)) p hp

/-- Lines that open nothing hold no region and leave none open. -/
theorem scan_silent {pairs : List (Text × Bool)} (h : ∀ p ∈ pairs, openAt p.2 p.1 = none) :
    regionsFrom 0 pairs = [] ∧ danglingFrom 0 pairs = [] := by
  induction pairs with
  | nil => exact ⟨rfl, rfl⟩
  | cons p pairs ih =>
    rw [regionsFrom, danglingFrom, h p List.mem_cons_self]
    exact ih fun p hp => h p (List.mem_cons_of_mem _ hp)

theorem regionsOf_plain (h : ∀ l ∈ ls, Plain l) : regionsOf ls = [] ∧ dangling ls = [] := by
  refine scan_silent fun p hp => ?_
  obtain ⟨hfence, hplain⟩ := marked_plain h p hp
  rw [openAt, hfence]
  exact hplain.opens

theorem not_closes_plain (h : ∀ l ∈ ls, Plain l) (tag : Text) : ¬Closes ls tag := by
  rintro ⟨p, hp, hcloses⟩
  obtain ⟨hfence, hplain⟩ := marked_plain h p hp
  rw [closesAt, hfence, Bool.not_false, Bool.true_and, decide_eq_true_eq] at hcloses
  exact hplain.closes tag hcloses

/-- A region: its marker lines, and lines between them that close no region of its tag. -/
structure Block (opener : Text) (inner : List Text) (closer tag : Text) : Prop where
  opens : openTag opener = some tag
  closes : trim closer = closeMarker tag
  fence : fenceAfter false inner = false
  holds : ¬Closes inner tag

theorem Block.of_plain (hopens : openTag opener = some tag) (hcloses : trim closer = closeMarker tag)
    (h : ∀ l ∈ inner, Plain l) : Block opener inner closer tag where
  opens := hopens
  closes := hcloses
  fence := fenceAfter_plain h false
  holds := not_closes_plain h tag

variable (h : Block opener inner closer tag)
include h

theorem Block.marked : marked false (opener :: (inner ++ closer :: post)) =
    (opener, false) :: (marked false inner ++ (closer, false) :: marked false post) := by
  have hcloser : isFence closer = false := isFence_of_trim h.closes
  rw [marked_cons, isFence_of_openTag h.opens]
  simp only [Bool.false_or, Bool.false_eq_true, if_false]
  rw [marked_append, h.fence, marked_cons, hcloser]
  rfl

theorem Block.fenceAfter : fenceAfter false (opener :: (inner ++ closer :: post)) =
    Doc.fenceAfter false post := by
  rw [fenceAfter_cons, isFence_of_openTag h.opens]
  simp only [Bool.false_eq_true, if_false]
  rw [fenceAfter_append, h.fence, fenceAfter_cons, isFence_of_trim h.closes]
  rfl

/-- The line that closes a block is the first that closes its tag. -/
theorem Block.found : (Doc.marked false (inner ++ closer :: post)).findIdx? (closesAt tag) =
    some inner.length := by
  have hcloser : closesAt tag (closer, false) = true := decide_eq_true h.closes
  have hinner : (Doc.marked false inner).findIdx? (closesAt tag) = none :=
    findIdx?_closes fun p hp => Bool.eq_false_iff.mpr fun hcloses => h.holds ⟨p, hp, hcloses⟩
  rw [marked_append, h.fence, marked_cons, isFence_of_trim h.closes, List.findIdx?_append, hinner,
    Option.none_or, List.findIdx?_cons, Bool.or_self, hcloser, if_pos rfl, Option.map_some,
    marked_length, Nat.zero_add]

/-- A block is scanned as one region. -/
theorem Block.scan :
    regionsOf (opener :: (inner ++ closer :: post)) = (tag, inner) :: regionsOf post ∧
      dangling (opener :: (inner ++ closer :: post)) = dangling post := by
  have hopen : openAt false opener = some tag := h.opens
  have hskipped {α : Type} (scan : Nat → List (Text × Bool) → List α)
      (hscan : ∀ skip p rest, scan (skip + 1) (p :: rest) = scan skip rest)
      (pairs rest : List (Text × Bool)) : scan pairs.length (pairs ++ rest) = scan 0 rest := by
    induction pairs with
    | nil => rfl
    | cons p pairs ih => rw [List.length_cons, List.cons_append, hscan, ih]
  have hfound : (Doc.marked false inner ++ (closer, false) :: Doc.marked false post).findIdx?
      (closesAt tag) = some inner.length := by
    have hfound := @Block.found _ post _ _ _ h
    rwa [marked_append, h.fence, marked_cons, isFence_of_trim h.closes] at hfound
  have htake : ((Doc.marked false inner ++ (closer, false) :: Doc.marked false post).take
      inner.length).map Prod.fst = inner := by
    rw [← marked_length false inner, List.take_left', marked_map_fst]
    rfl
  have hlength : inner.length + 1 = (Doc.marked false inner ++ [(closer, false)]).length := by simp
  have hrest : Doc.marked false inner ++ (closer, false) :: Doc.marked false post =
      (Doc.marked false inner ++ [(closer, false)]) ++ Doc.marked false post := by simp
  constructor
  · rw [regionsOf, h.marked, regionsFrom]
    simp only [hopen, hfound, htake]
    rw [hlength, hrest, hskipped regionsFrom fun _ _ _ => rfl]
    rfl
  · rw [dangling, h.marked, danglingFrom]
    simp only [hopen, hfound]
    rw [hlength, hrest, hskipped danglingFrom fun _ _ _ => rfl]
    rfl

/-- A block closes what stands in it closes, its own tag, and what follows it closes. -/
theorem Block.closes_iff {tag' : Text} : Closes (opener :: (inner ++ closer :: post)) tag' ↔
    Closes inner tag' ∨ tag' = tag ∨ Closes post tag' := by
  have hopener : closesAt tag' (opener, false) = false :=
    decide_eq_false (closes_ne_of_openTag h.opens tag')
  have hcloser : closesAt tag' (closer, false) = true ↔ tag' = tag := by
    rw [closesAt, Bool.not_false, Bool.true_and, decide_eq_true_eq, h.closes]
    exact ⟨fun heq => (closeMarker_injective heq).symm, fun heq => heq ▸ rfl⟩
  simp only [Closes, h.marked, List.mem_cons, List.mem_append, or_and_right, exists_or,
    exists_eq_left, hopener, hcloser, Bool.false_eq_true, false_or]

end blocks

/-! ### The lines around a region -/

/-- The first region of a tag: its block, the lines before it, which hold no region of the tag and
leave nothing open that the rest would close, and the lines after it. -/
structure Around (ls : List Text) (tag : Text) (before : List Text) (opener : Text)
    (inner : List Text) (closer : Text) (after : List Text) : Prop where
  lines : ls = before ++ opener :: (inner ++ closer :: after)
  fence : fenceAfter false before = false
  block : Block opener inner closer tag
  first : ∀ r ∈ regionsOf before, r.1 ≠ tag
  apart : ∀ t ∈ dangling before, ¬Closes (opener :: (inner ++ closer :: after)) t

theorem find_spansFrom {pairs : List (Text × Bool)} {i skip : Nat} {tag : Text} {s : Span}
    (h : (spansFrom i skip pairs).find? (fun s => s.tag = tag) = some s) :
    ∃ before opener inner closer after,
      pairs = before ++ (opener, false) :: (inner ++ (closer, false) :: after) ∧
      skip ≤ before.length ∧ s.openLine = i + before.length ∧
      s.closeLine = i + before.length + 1 + inner.length ∧ openTag opener = some tag ∧
      trim closer = closeMarker tag ∧ (∀ p ∈ inner, closesAt tag p = false) ∧
      (∀ r ∈ regionsFrom skip before, r.1 ≠ tag) ∧
      ∀ t ∈ danglingFrom skip before,
        ∀ p ∈ (opener, false) :: (inner ++ (closer, false) :: after), closesAt t p = false := by
  induction pairs generalizing i skip with
  | nil => cases h
  | cons p rest ih =>
    obtain ⟨l, fenced⟩ := p
    cases skip with
    | succ skip =>
      obtain ⟨before, opener, inner, closer, after, rfl, hskip, hopen, hclose, hrest⟩ := ih h
      refine ⟨(l, fenced) :: before, opener, inner, closer, after, rfl,
        Nat.succ_le_succ hskip, ?_, ?_, hrest⟩
      · rw [hopen, List.length_cons]
        omega
      · rw [hclose, List.length_cons]
        omega
    | zero =>
      rw [spansFrom] at h
      cases htag : openAt fenced l with
      | none =>
        simp only [htag] at h
        obtain ⟨before, opener, inner, closer, after, rfl, -, hopen, hclose, hopens, hcloses, hinner,
          hfirst, hapart⟩ := ih h
        refine ⟨(l, fenced) :: before, opener, inner, closer, after, rfl, Nat.zero_le _, ?_, ?_,
          hopens, hcloses, hinner, ?_, ?_⟩
        · rw [hopen, List.length_cons]
          omega
        · rw [hclose, List.length_cons]
          omega
        · rwa [regionsFrom, htag]
        · rwa [danglingFrom, htag]
      | some found =>
        have hfenced : fenced = false := by
          cases fenced with
          | false => rfl
          | true => cases htag
        subst hfenced
        simp only [htag] at h
        change (match rest.findIdx? (closesAt found) with
          | none => spansFrom (i + 1) 0 rest
          | some k => ⟨found, i, i + 1 + k⟩ :: spansFrom (i + 1) (k + 1) rest).find? _ = some s at h
        cases hfound : rest.findIdx? (closesAt found) with
        | none =>
          simp only [hfound] at h
          have hnone := List.findIdx?_eq_none_iff.mp hfound
          obtain ⟨before, opener, inner, closer, after, rfl, -, hopen, hclose, hopens, hcloses,
            hinner, hfirst, hapart⟩ := ih h
          have hbefore : before.findIdx? (closesAt found) = none :=
            findIdx?_closes fun p hp => hnone p (List.mem_append_left _ hp)
          refine ⟨(l, false) :: before, opener, inner, closer, after, rfl, Nat.zero_le _, ?_, ?_,
            hopens, hcloses, hinner, ?_, ?_⟩
          · rw [hopen, List.length_cons]
            omega
          · rw [hclose, List.length_cons]
            omega
          · simpa only [regionsFrom, htag, hbefore] using hfirst
          · simp only [danglingFrom, htag, hbefore, List.forall_mem_cons (a := found)]
            exact ⟨fun p hp => hnone p (List.mem_append_right _ hp), hapart⟩
        | some k =>
          simp only [hfound] at h
          obtain ⟨hk, hcloses, hnot⟩ := List.findIdx?_eq_some_iff_getElem.mp hfound
          rw [List.find?_cons] at h
          by_cases heq : found = tag
          · subst heq
            simp only [decide_true] at h
            obtain rfl := Option.some.inj h
            obtain ⟨hflag, htrim⟩ : rest[k].2 = false ∧ trim rest[k].1 = closeMarker found := by
              simpa [closesAt] using hcloses
            have hclosing : rest[k] = (rest[k].1, false) := Prod.ext rfl hflag
            refine ⟨[], l, rest.take k, rest[k].1, rest.drop (k + 1), ?_, le_refl _, rfl, ?_, htag,
              htrim, ?_, fun r hr => absurd hr List.not_mem_nil,
              fun t ht => absurd ht List.not_mem_nil⟩
            · rw [← hclosing, List.getElem_cons_drop, List.take_append_drop]
              rfl
            · rw [List.length_take, Nat.min_eq_left hk.le]
              rfl
            · intro p hp
              obtain ⟨j, hj, rfl⟩ := List.mem_take_iff_getElem.mp hp
              exact Bool.eq_false_iff.mpr (hnot j (by omega))
          · simp only [heq, decide_false] at h
            obtain ⟨before, opener, inner, closer, after, rfl, hskip, hopen, hclose, hopens, hcloses,
              hinner, hfirst, hapart⟩ := ih h
            have hbefore : before.findIdx? (closesAt found) = some k := by
              rw [List.findIdx?_append] at hfound
              cases hfirst : before.findIdx? (closesAt found) with
              | some j => simpa [hfirst] using hfound
              | none =>
                rw [hfirst, Option.none_or, Option.map_eq_some_iff] at hfound
                obtain ⟨j, -, hj⟩ := hfound
                omega
            refine ⟨(l, false) :: before, opener, inner, closer, after, rfl, Nat.zero_le _, ?_, ?_,
              hopens, hcloses, hinner, ?_, ?_⟩
            · rw [hopen, List.length_cons]
              omega
            · rw [hclose, List.length_cons]
              omega
            · simp only [regionsFrom, htag, hbefore, List.forall_mem_cons]
              exact ⟨heq, hfirst⟩
            · simpa only [danglingFrom, htag, hbefore] using hapart

section around

variable {content tag : Text} {ls before inner after : List Text} {opener closer : Text} {s : Span}

/-- **The lines around the first region** of a tag. -/
theorem locate_some (h : locate ls tag = some s) :
    ∃ before opener inner closer after, Around ls tag before opener inner closer after ∧
      s.openLine = before.length ∧ s.closeLine = before.length + 1 + inner.length := by
  obtain ⟨before, opener, inner, closer, after, hpairs, -, hopen, hclose, hopens, hcloses, hinner,
    hfirst, hapart⟩ := find_spansFrom h
  change marked false ls = _ at hpairs
  have hls := congrArg (List.map Prod.fst) hpairs
  rw [marked_map_fst, List.map_append, List.map_cons, List.map_append, List.map_cons] at hls
  rw [hls, marked_append] at hpairs
  obtain ⟨hbefore, hpairs⟩ := List.append_inj hpairs (by simp)
  rw [marked_cons, List.cons.injEq, Prod.mk.injEq, Bool.or_eq_false_iff] at hpairs
  obtain ⟨⟨-, hnotFence, hfence⟩, hpairs⟩ := hpairs
  simp only [hnotFence, hfence, Bool.false_eq_true, if_false] at hpairs
  rw [marked_append] at hpairs
  obtain ⟨hinnerMarked, hpairs⟩ := List.append_inj hpairs (by simp)
  rw [marked_cons, List.cons.injEq, Prod.mk.injEq, Bool.or_eq_false_iff] at hpairs
  obtain ⟨⟨-, hnotFence', hfence'⟩, hafter⟩ := hpairs
  simp only [hnotFence', hfence', Bool.false_eq_true, if_false] at hafter
  have hblock : Block opener (inner.map Prod.fst) closer tag :=
    ⟨hopens, hcloses, hfence', fun ⟨p, hp, hclosesAt⟩ =>
      Bool.eq_false_iff.mp (hinner p (hinnerMarked ▸ hp)) hclosesAt⟩
  refine ⟨before.map Prod.fst, opener, inner.map Prod.fst, closer, after.map Prod.fst,
    ⟨hls, hfence, hblock, ?_, ?_⟩, by simpa using hopen, by simpa using hclose⟩
  · rwa [regionsOf, hbefore]
  · rintro t ht ⟨p, hp, hclosesAt⟩
    rw [hblock.marked, hinnerMarked, hafter] at hp
    rw [dangling, hbefore] at ht
    exact Bool.eq_false_iff.mp (hapart t ht p hp) hclosesAt

theorem Around.locate (h : Around ls tag before opener inner closer after) :
    locate ls tag = some ⟨tag, before.length, before.length + 1 + inner.length⟩ := by
  have hmarked : marked false ls = marked false before ++
      marked false (opener :: (inner ++ closer :: after)) := by
    rw [h.lines, marked_closed h.fence]
  have hapart : ∀ t ∈ danglingFrom 0 (marked false before),
      ∀ p ∈ marked false (opener :: (inner ++ closer :: after)), closesAt t p = false :=
    fun t ht p hp => Bool.eq_false_iff.mpr fun hcloses => h.apart t ht ⟨p, hp, hcloses⟩
  have hspans : spansOf ls = spansFrom 0 0 (marked false before) ++
      spansFrom before.length 0 (marked false (opener :: (inner ++ closer :: after))) := by
    have happend := spans_append 0 (Nat.zero_le _) hapart
    rwa [← hmarked, marked_length, Nat.zero_add] at happend
  have hbefore : ∀ s ∈ spansFrom 0 0 (marked false before), s.tag ≠ tag := by
    intro s hs
    have hmem := List.mem_map_of_mem (f := fun s => (s.tag,
      slice ((marked false before).map Prod.fst) (s.openLine + 1 - 0) (s.closeLine - 0))) hs
    rw [← regionsFrom_eq 0] at hmem
    exact h.first _ hmem
  have hblock : (spansFrom before.length 0 (marked false (opener :: (inner ++ closer :: after)))).head?
      = some ⟨tag, before.length, before.length + 1 + inner.length⟩ := by
    have hopen : openAt false opener = some tag := h.block.opens
    have hfound := @Block.found _ after _ _ _ h.block
    rw [marked_cons, isFence_of_openTag h.block.opens]
    simp only [Bool.false_or, Bool.false_eq_true, if_false, spansFrom, hopen]
    change (match (marked false (inner ++ closer :: after)).findIdx? (closesAt tag) with
      | none => spansFrom (before.length + 1) 0 (marked false (inner ++ closer :: after))
      | some k => ⟨tag, before.length, before.length + 1 + k⟩ ::
          spansFrom (before.length + 1) (k + 1) (marked false (inner ++ closer :: after))).head? = _
    rw [hfound, List.head?_cons]
  obtain ⟨rest, hrest⟩ := List.head?_eq_some_iff.mp hblock
  rw [Doc.locate, hspans, hrest, List.find?_append, List.find?_eq_none.mpr (by simpa using hbefore),
    Option.none_or, List.find?_cons_of_pos (by simp)]

theorem locate_eq (ls : List Text) (tag : Text) :
    (locate ls tag).map (fun s => slice ls (s.openLine + 1) s.closeLine) =
      ((regionsOf ls).find? fun r => r.1 = tag).map Prod.snd := by
  rw [regionsOf, regionsFrom_eq 0, marked_map_fst, List.find?_map, Option.map_map]
  rfl

theorem regionBody_eq (content tag : Text) :
    regionBody content tag =
      ((regionsOf (lines content)).find? fun r => r.1 = tag).map fun r => join (trimBlank r.2) := by
  have hlocate := congrArg (Option.map fun inner => join (trimBlank inner))
    (locate_eq (lines content) tag)
  rw [Option.map_map, Option.map_map] at hlocate
  exact hlocate

theorem locate_eq_none : locate ls tag = none ↔ ∀ r ∈ regionsOf ls, r.1 ≠ tag := by
  rw [← Option.map_eq_none_iff, locate_eq, Option.map_eq_none_iff, List.find?_eq_none]
  simp

theorem hasRegion_iff : hasRegion content tag = true ↔ ∃ r ∈ regionsOf (lines content), r.1 = tag := by
  have hlocate : hasRegion content tag = (locate (lines content) tag).isSome := by
    rw [hasRegion, locate, List.isSome_find?]
  rw [hlocate, ← Option.not_isNone, Bool.not_eq_true', ← Bool.not_eq_true, Option.isNone_iff_eq_none,
    locate_eq_none]
  simp

end around

/-! ### What an edit does to the regions -/

/-- What a scan of lines finds: the regions, what is left open, and whether a fence is. -/
structure ScansAs (ls : List Text) (regions : List (Text × List Text)) (opened : List Text)
    (fence : Bool) : Prop where
  regions : regionsOf ls = regions
  dangling : dangling ls = opened
  fence : fenceAfter false ls = fence

/-- Replace the lines of the first region of a tag, or add the region. -/
def setRegion (tag : Text) (inner : List Text) :
    List (Text × List Text) → List (Text × List Text)
  | [] => [(tag, inner)]
  | r :: rs => if r.1 = tag then (tag, inner) :: rs else r :: setRegion tag inner rs

/-- The lines of a region around a body. -/
def bodyLines (body : Text) : List Text := [] :: (lines body ++ [[]])

section edits

variable {content tag body : Text} {ls before inner inner' after : List Text} {opener closer : Text}
  {rs rs' : List (Text × List Text)}

theorem setRegion_append (h : ∀ r ∈ rs, r.1 ≠ tag) :
    setRegion tag inner (rs ++ rs') = rs ++ setRegion tag inner rs' := by
  induction rs with
  | nil => rfl
  | cons r rs ih =>
    rw [List.cons_append, setRegion, if_neg (h r List.mem_cons_self),
      ih fun r hr => h r (List.mem_cons_of_mem _ hr), List.cons_append]

theorem find?_setRegion (tag : Text) (inner : List Text) (rs : List (Text × List Text)) :
    (setRegion tag inner rs).find? (fun r => r.1 = tag) = some (tag, inner) := by
  induction rs with
  | nil => simp [setRegion]
  | cons r rs ih =>
    rw [setRegion]
    split
    · simp
    · rename_i hne
      rw [List.find?_cons_of_neg (by simpa using hne), ih]

theorem find?_setRegion_ne {tag' : Text} (hne : tag' ≠ tag) (rs : List (Text × List Text)) :
    (setRegion tag inner rs).find? (fun r => r.1 = tag') = rs.find? fun r => r.1 = tag' := by
  have htag : (decide (tag = tag')) = false := decide_eq_false (Ne.symm hne)
  induction rs with
  | nil => simp [setRegion, htag]
  | cons r rs ih =>
    rw [setRegion]
    split
    · rename_i heq
      simp [htag, heq]
    · rw [List.find?_cons, List.find?_cons, ih]

theorem Plain.of_blank {l : Text} (h : l.all isWhitespace = true) : Plain l := by
  refine Plain.of_start ?_
  have hnil : trimStart l = [] := List.dropWhile_eq_nil_iff.mpr (List.all_eq_true.mp h)
  rw [plainStart, hnil]

theorem Plain.nil : Plain [] := .of_blank rfl

/-- Plain lines before a text add nothing to it. -/
theorem scansAs_plain (h : ∀ l ∈ ls, Plain l) (ls' : List Text) :
    ScansAs (ls ++ ls') (regionsOf ls') (dangling ls') (fenceAfter false ls') := by
  obtain ⟨hregions, hdangling⟩ := regionsOf_plain h
  have hfence := fenceAfter_plain h false
  have hapart : ∀ tag ∈ dangling ls, ¬Closes ls' tag := by
    rw [hdangling]
    exact fun tag htag => absurd htag List.not_mem_nil
  exact ⟨by rw [regionsOf_append hfence hapart, hregions, List.nil_append],
    by rw [dangling_append hfence hapart, hdangling, List.nil_append],
    by rw [fenceAfter_append, hfence]⟩

/-- Plain lines behind a closed text add nothing to it. -/
theorem scansAs_plain_right (hfence : fenceAfter false ls = false) {ls' : List Text}
    (h : ∀ l ∈ ls', Plain l) : ScansAs (ls ++ ls') (regionsOf ls) (dangling ls) false := by
  obtain ⟨hregions, hdangling⟩ := regionsOf_plain h
  have hapart : ∀ tag ∈ dangling ls, ¬Closes ls' tag := fun tag _ => not_closes_plain h tag
  exact ⟨by rw [regionsOf_append hfence hapart, hregions, List.append_nil],
    by rw [dangling_append hfence hapart, hdangling, List.append_nil],
    by rw [fenceAfter_append, hfence, fenceAfter_plain h]⟩

namespace Around

theorem scans (h : Around ls tag before opener inner closer after) :
    ScansAs ls (regionsOf before ++ (tag, inner) :: regionsOf after)
      (dangling before ++ dangling after) (fenceAfter false after) := by
  obtain ⟨hregions, hdangling⟩ := @Block.scan _ after _ _ _ h.block
  exact ⟨by rw [h.lines, regionsOf_append h.fence h.apart, hregions],
    by rw [h.lines, dangling_append h.fence h.apart, hdangling],
    by rw [h.lines, fenceAfter_append, h.fence, h.block.fenceAfter]⟩

/-- Other lines between the same markers make the region another, and change nothing else. -/
theorem replace (h : Around ls tag before opener inner closer after)
    (hinner : ∀ l ∈ inner', Plain l) :
    Around (before ++ opener :: (inner' ++ closer :: after)) tag before opener inner' closer after where
  lines := rfl
  fence := h.fence
  block := .of_plain h.block.opens h.block.closes hinner
  first := h.first
  apart := by
    intro t ht hcloses
    rw [(Block.of_plain h.block.opens h.block.closes hinner).closes_iff] at hcloses
    rcases hcloses with hinner' | hrest
    · exact not_closes_plain hinner t hinner'
    · exact h.apart t ht (h.block.closes_iff.mpr (.inr hrest))

theorem setRegion_eq (h : Around ls tag before opener inner closer after) :
    setRegion tag inner' (regionsOf ls) =
      regionsOf before ++ (tag, inner') :: regionsOf after := by
  rw [h.scans.regions, setRegion_append h.first, setRegion, if_pos rfl]

end Around

theorem plain_bodyLines (h : ∀ l ∈ lines body, Plain l) : ∀ l ∈ bodyLines body, Plain l := by
  intro l hl
  rcases List.mem_cons.mp hl with rfl | hl
  · exact .nil
  · rcases List.mem_append.mp hl with hl | hl
    · exact h l hl
    · rw [List.mem_singleton.mp hl]
      exact .nil

theorem newline_notMem_bodyLines (body : Text) : ∀ l ∈ bodyLines body, '\n' ∉ l := by
  intro l hl
  rcases List.mem_cons.mp hl with rfl | hl
  · exact List.not_mem_nil
  · rcases List.mem_append.mp hl with hl | hl
    · exact newline_notMem_lines body l hl
    · rw [List.mem_singleton.mp hl]
      exact List.not_mem_nil

/-- The line feeds at the end of a text are empty lines. -/
theorem lines_trimNewlines (content : Text) :
    ∃ gap, (∀ l ∈ gap, l = []) ∧ lines content = lines (trimNewlines content) ++ gap := by
  induction content using List.reverseRecOn with
  | nil => exact ⟨[], by simp, (List.append_nil _).symm⟩
  | append_singleton content c ih =>
    by_cases hc : c = '\n'
    · obtain ⟨gap, hgap, hlines⟩ := ih
      refine ⟨gap ++ [[]], ?_, ?_⟩
      · intro l hl
        rcases List.mem_append.mp hl with hl | hl
        · exact hgap l hl
        · exact List.mem_singleton.mp hl
      · have hlast : lines (content ++ [c]) = lines content ++ [[]] := hc ▸ lines_append content []
        rw [trimNewlines, List.rdropWhile_concat_pos _ _ _ (by simpa using hc), hlast, hlines,
          List.append_assoc]
        rfl
    · refine ⟨[], by simp, ?_⟩
      rw [trimNewlines, List.rdropWhile_concat_neg _ _ _ (by simpa using hc), List.append_nil]

/-- What a region is appended to. -/
def appendLead (content : Text) : List Text :=
  if trimNewlines content = [] then [] else lines (trimNewlines content) ++ [[]]

theorem scansAs_appendLead (hfence : fenceAfter false (lines content) = false) :
    ScansAs (appendLead content) (regionsOf (lines content)) (dangling (lines content)) false := by
  obtain ⟨gap, hgap, hlines⟩ := lines_trimNewlines content
  have hplain : ∀ l ∈ gap, Plain l := fun l hl => hgap l hl ▸ .nil
  have hcore : fenceAfter false (lines (trimNewlines content)) = false := by
    rw [hlines, fenceAfter_append] at hfence
    rwa [fenceAfter_plain hplain] at hfence
  have hcontent := scansAs_plain_right hcore hplain
  rw [← hlines] at hcontent
  rw [hcontent.regions, hcontent.dangling]
  unfold appendLead
  split
  · rename_i hnil
    rw [hnil]
    have hempty := @scansAs_plain [[]] (by simpa using Plain.nil) []
    exact ⟨hempty.regions.symm, hempty.dangling.symm, rfl⟩
  · exact scansAs_plain_right hcore (by simpa using Plain.nil)

/-- Where there is a region, an upsert puts other lines between its markers. -/
theorem lines_upsert_around (h : Around (lines content) tag before opener inner closer after)
    (body : Text) :
    lines (upsert content tag body) = before ++ opener :: (bodyLines body ++ closer :: after) := by
  have htake : (lines content).take (before.length + 1) = before ++ [opener] := by
    rw [h.lines, List.take_append]
    simp
  have hdrop : (lines content).drop (before.length + 1 + inner.length) = closer :: after := by
    have hsplit : lines content = (before ++ opener :: inner) ++ closer :: after := by
      rw [h.lines]
      simp
    rw [hsplit]
    exact List.drop_left' (by simp; omega)
  have hall : ∀ l ∈ before ++ opener :: (bodyLines body ++ closer :: after), '\n' ∉ l := by
    intro l hl
    have hold := newline_notMem_lines content
    rw [h.lines] at hold
    simp only [List.mem_append, List.mem_cons] at hl hold
    rcases hl with hl | hl | hl | hl | hl
    · exact hold l (.inl hl)
    · exact hold l (.inr (.inl hl))
    · exact newline_notMem_bodyLines body l hl
    · exact hold l (.inr (.inr (.inr (.inl hl))))
    · exact hold l (.inr (.inr (.inr (.inr hl))))
  rw [upsert, h.locate]
  simp only [htake, hdrop]
  rw [← lines_join hall (by simp)]
  simp [bodyLines]

/-- Where there is none, an upsert puts a block at the end. -/
theorem lines_upsert_absent (htag : IsTag tag) (h : ∀ r ∈ regionsOf (lines content), r.1 ≠ tag)
    (body : Text) : lines (upsert content tag body) = appendLead content ++
      openMarker tag :: (bodyLines body ++ closeMarker tag :: [[]]) := by
  have hlocate : locate (lines content) tag = none := locate_eq_none.mpr h
  have hbreak : "\n\n".toList = ['\n', '\n'] := by decide
  have hlines : lines (openMarker tag ++ '\n' :: '\n' :: (body ++ '\n' :: '\n' ::
      (closeMarker tag ++ ['\n']))) =
        openMarker tag :: (bodyLines body ++ closeMarker tag :: [[]]) := by
    rw [lines_append, lines_line htag.newline_notMem.1, lines_newline, lines_append, lines_newline,
      lines_append, lines_line htag.newline_notMem.2]
    simp [bodyLines, lines_nil]
  rw [upsert, hlocate]
  simp only [hbreak, appendLead]
  split
  · rw [← hlines]
    simp
  · have hlead (text : Text) : lines (trimNewlines content) ++ [[]] ++ lines text =
        lines (trimNewlines content ++ '\n' :: '\n' :: text) := by
      rw [lines_append, lines_newline, List.append_assoc]
      rfl
    rw [← hlines, hlead]
    simp

/-- The two ways of `upsert`: other lines between the markers, or a block at the end. -/
theorem upsert_cases (htag : IsTag tag) (content body : Text) :
    (∃ before opener inner closer after,
      Around (lines content) tag before opener inner closer after ∧
      lines (upsert content tag body) = before ++ opener :: (bodyLines body ++ closer :: after)) ∨
    ((∀ r ∈ regionsOf (lines content), r.1 ≠ tag) ∧
      lines (upsert content tag body) = appendLead content ++
        openMarker tag :: (bodyLines body ++ closeMarker tag :: [[]])) := by
  cases hlocate : locate (lines content) tag with
  | some s =>
    obtain ⟨before, opener, inner, closer, after, haround, -, -⟩ := locate_some hlocate
    exact .inl ⟨before, opener, inner, closer, after, haround, lines_upsert_around haround body⟩
  | none =>
    have hnone := locate_eq_none.mp hlocate
    exact .inr ⟨hnone, lines_upsert_absent htag hnone body⟩

/-- The region can be written: there is one, or a block at the end of the text is read as one. -/
def Fits (content tag : Text) : Prop :=
  (∃ r ∈ regionsOf (lines content), r.1 = tag) ∨
    (fenceAfter false (lines content) = false ∧ tag ∉ dangling (lines content))

/-- A block at the end of a closed text is the region of its tag. -/
theorem around_appended (htag : IsTag tag) (hbody : ∀ l ∈ lines body, Plain l)
    (hnone : ∀ r ∈ regionsOf (lines content), r.1 ≠ tag)
    (hfence : fenceAfter false (lines content) = false) (hdangling : tag ∉ dangling (lines content)) :
    Around (lines (upsert content tag body)) tag (appendLead content) (openMarker tag)
      (bodyLines body) (closeMarker tag) [[]] := by
  have hlead := scansAs_appendLead hfence
  have hblock : Block (openMarker tag) (bodyLines body) (closeMarker tag) tag :=
    .of_plain (openTag_openMarker htag) (trim_closeMarker tag) (plain_bodyLines hbody)
  have hend : ∀ l ∈ [([] : Text)], Plain l := by simpa using Plain.nil
  refine ⟨lines_upsert_absent htag hnone body, hlead.fence, hblock, ?_, ?_⟩
  · rw [hlead.regions]
    exact hnone
  · intro t ht hcloses
    rw [hlead.dangling] at ht
    rw [hblock.closes_iff] at hcloses
    rcases hcloses with hcloses | rfl | hcloses
    · exact not_closes_plain (plain_bodyLines hbody) t hcloses
    · exact hdangling ht
    · exact not_closes_plain hend t hcloses

/-- **An upsert sets the region of its tag** and leaves every other as it was. -/
theorem scans_upsert (htag : IsTag tag) (hbody : ∀ l ∈ lines body, Plain l) (h : Fits content tag) :
    ScansAs (lines (upsert content tag body))
      (setRegion tag (bodyLines body) (regionsOf (lines content))) (dangling (lines content))
      (fenceAfter false (lines content)) := by
  rcases upsert_cases htag content body with
    ⟨before, opener, inner, closer, after, haround, hlines⟩ | ⟨hnone, hlines⟩
  · have hnew := (haround.replace (plain_bodyLines hbody)).scans
    rw [hlines, haround.setRegion_eq, haround.scans.dangling, haround.scans.fence]
    exact hnew
  · obtain ⟨hfence, hdangling⟩ : fenceAfter false (lines content) = false ∧
        tag ∉ dangling (lines content) := by
      rcases h with ⟨r, hr, hrtag⟩ | h
      · exact absurd hrtag (hnone r hr)
      · exact h
    have hlead := scansAs_appendLead hfence
    have hscans := (around_appended htag hbody hnone hfence hdangling).scans
    obtain ⟨hregions, hopened⟩ := @regionsOf_plain [[]] (by simpa using Plain.nil)
    have hset : setRegion tag (bodyLines body) (regionsOf (lines content)) =
        regionsOf (lines content) ++ [(tag, bodyLines body)] := by
      have happend := @setRegion_append tag (bodyLines body) _ [] hnone
      rwa [List.append_nil] at happend
    rw [hlead.regions, hlead.dangling, hregions, hopened, List.append_nil] at hscans
    rw [hset, hfence]
    exact hscans

/-- The lines that `remove` leaves of those around a region. -/
structure Remains (before after before' after' : List Text) : Prop where
  before : before' = before ∨ ∃ l, l.all isWhitespace = true ∧ before = before' ++ [l]
  after : after' = after ∨ ∃ l, l.all isWhitespace = true ∧ after = l :: after'

/-- A removal takes a blank line before the region, or else one after it. -/
theorem remove_around (h : Around (lines content) tag before opener inner closer after) :
    remove content tag =
      if before.getLast?.any fun l => l.all isWhitespace then join (before.dropLast ++ after)
      else if after.head?.any fun l => l.all isWhitespace then join (before ++ after.tail)
      else join (before ++ after) := by
  have hsplit : lines content = (before ++ opener :: (inner ++ [closer])) ++ after := by
    rw [h.lines]
    simp
  have hlength : (before ++ opener :: (inner ++ [closer])).length =
      before.length + 1 + inner.length + 1 := by
    simp only [List.length_append, List.length_cons, List.length_nil]
    omega
  have htake : (lines content).take before.length = before := by
    rw [h.lines, List.take_left' rfl]
  have hdrop : (lines content).drop (before.length + 1 + inner.length + 1) = after := by
    rw [hsplit, List.drop_left' hlength]
  have hdrop' : (lines content).drop (before.length + 1 + inner.length + 2) = after.tail := by
    rw [← List.drop_one, ← hdrop, List.drop_drop]
  have hinit : (lines content).take (before.length - 1) = before.dropLast := by
    rw [List.dropLast_eq_take, ← htake, List.take_take, htake]
    congr 1
    omega
  have hbefore : (0 < before.length ∧
      ((lines content)[before.length - 1]?.getD []).all isWhitespace = true) ↔
        before.getLast?.any (fun l => l.all isWhitespace) = true := by
    rcases List.eq_nil_or_concat before with rfl | ⟨front, last, rfl⟩
    · simp
    · rw [List.concat_eq_append, List.getLast?_concat, h.lines]
      simp
  have hafter : (before.length + 1 + inner.length + 1 < (lines content).length ∧
      ((lines content)[before.length + 1 + inner.length + 1]?.getD []).all isWhitespace = true) ↔
        after.head?.any (fun l => l.all isWhitespace) = true := by
    have hget : (lines content)[before.length + 1 + inner.length + 1]? = after.head? := by
      rw [List.head?_eq_getElem?, ← hdrop, List.getElem?_drop, Nat.add_zero]
    have hlt : before.length + 1 + inner.length + 1 < (lines content).length ↔ after ≠ [] := by
      rw [hsplit, List.length_append, hlength, ← List.length_pos_iff]
      omega
    rw [hget, hlt]
    cases after with
    | nil => simp
    | cons l after => simp
  simp only [remove, h.locate, hbefore, hafter, htake, hdrop, hdrop', hinit]

theorem remove_cases (content tag : Text) :
    ((∀ r ∈ regionsOf (lines content), r.1 ≠ tag) ∧ remove content tag = content) ∨
    ∃ before opener inner closer after before' after',
      Around (lines content) tag before opener inner closer after ∧
      Remains before after before' after' ∧ remove content tag = join (before' ++ after') := by
  cases hlocate : locate (lines content) tag with
  | none =>
    refine .inl ⟨locate_eq_none.mp hlocate, ?_⟩
    simp only [remove, hlocate]
  | some s =>
    obtain ⟨before, opener, inner, closer, after, haround, -, -⟩ := locate_some hlocate
    refine .inr ⟨before, opener, inner, closer, after, ?_⟩
    rw [remove_around haround]
    split
    · rename_i hblank
      obtain ⟨l, hlast, hl⟩ := (Option.any_eq_true _ _).mp hblank
      obtain ⟨front, rfl⟩ := List.getLast?_eq_some_iff.mp hlast
      refine ⟨front, after, haround, ⟨.inr ⟨l, hl, rfl⟩, .inl rfl⟩, ?_⟩
      rw [List.dropLast_concat]
    · split
      · rename_i hblank
        obtain ⟨l, hhead, hl⟩ := (Option.any_eq_true _ _).mp hblank
        obtain ⟨rest, rfl⟩ := List.head?_eq_some_iff.mp hhead
        exact ⟨before, rest, haround, ⟨.inl rfl, .inr ⟨l, hl, rfl⟩⟩, rfl⟩
      · exact ⟨before, after, haround, ⟨.inl rfl, .inl rfl⟩, rfl⟩

theorem Remains.scans {before' after' : List Text} (h : Remains before after before' after')
    (hfence : fenceAfter false before = false) :
    ScansAs before' (regionsOf before) (dangling before) false ∧
      ScansAs after' (regionsOf after) (dangling after) (fenceAfter false after) := by
  have hplain {l : Text} (hl : l.all isWhitespace = true) : ∀ k ∈ [l], Plain k := by
    simpa using Plain.of_blank hl
  constructor
  · rcases h.before with rfl | ⟨l, hl, rfl⟩
    · exact ⟨rfl, rfl, hfence⟩
    · rw [fenceAfter_append, fenceAfter_plain (hplain hl)] at hfence
      have hscan := scansAs_plain_right hfence (hplain hl)
      exact ⟨hscan.regions.symm, hscan.dangling.symm, hfence⟩
  · rcases h.after with rfl | ⟨l, hl, rfl⟩
    · exact ⟨rfl, rfl, rfl⟩
    · have hscan := scansAs_plain (hplain hl) after'
      exact ⟨hscan.regions.symm, hscan.dangling.symm, hscan.fence.symm⟩

/-- The empty text is one empty line, which holds nothing. -/
theorem scansAs_lines_join {opened : List Text} {fence : Bool} (hlines : ∀ l ∈ ls, '\n' ∉ l)
    (h : ScansAs ls rs opened fence) : ScansAs (lines (join ls)) rs opened fence := by
  by_cases hnil : ls = []
  · subst hnil
    have hempty := @scansAs_plain [[]] (by simpa using Plain.nil) []
    exact ⟨hempty.regions.trans h.regions, hempty.dangling.trans h.dangling,
      hempty.fence.trans h.fence⟩
  · rwa [lines_join hlines hnil]

/-- **A removal drops the first region of its tag** and leaves every other as it was. -/
theorem scans_remove (content tag : Text) :
    ScansAs (lines (remove content tag))
      ((regionsOf (lines content)).eraseP fun r => r.1 = tag) (dangling (lines content))
      (fenceAfter false (lines content)) := by
  rcases remove_cases content tag with ⟨hnone, hremove⟩ |
    ⟨before, opener, inner, closer, after, before', after', haround, hremains, hremove⟩
  · rw [hremove, List.eraseP_of_forall_not (by simpa using hnone)]
    exact ⟨rfl, rfl, rfl⟩
  · obtain ⟨hbefore, hafter⟩ := hremains.scans haround.fence
    have hdrop : (regionsOf before ++ (tag, inner) :: regionsOf after).eraseP
        (fun r => r.1 = tag) = regionsOf before ++ regionsOf after := by
      rw [List.eraseP_append_right _ (by simpa using haround.first),
        List.eraseP_cons_of_pos (by simp)]
    rw [hremove, haround.scans.regions, haround.scans.dangling, haround.scans.fence, hdrop]
    have hapart : ∀ t ∈ dangling before', ¬Closes after' t := by
      intro t ht hcloses
      rw [hbefore.dangling] at ht
      refine haround.apart t ht (haround.block.closes_iff.mpr (.inr (.inr ?_)))
      rcases hremains.after with rfl | ⟨l, hl, rfl⟩
      · exact hcloses
      · have hplain : ∀ k ∈ [l], Plain k := by simpa using Plain.of_blank hl
        exact (@closes_append [l] _ (fenceAfter_plain hplain false) t).mpr (.inr hcloses)
    refine scansAs_lines_join (fun l hl => ?_) ⟨?_, ?_, ?_⟩
    · refine newline_notMem_lines content l ?_
      rw [haround.lines]
      rcases List.mem_append.mp hl with hl | hl
      · refine List.mem_append_left _ ?_
        rcases hremains.before with rfl | ⟨k, -, rfl⟩
        · exact hl
        · exact List.mem_append_left _ hl
      · refine List.mem_append_right _ (List.mem_cons_of_mem _ (List.mem_append_right _
          (List.mem_cons_of_mem _ ?_)))
        rcases hremains.after with rfl | ⟨k, -, rfl⟩
        · exact hl
        · exact List.mem_cons_of_mem _ hl
    · rw [regionsOf_append hbefore.fence hapart, hbefore.regions, hafter.regions]
    · rw [dangling_append hbefore.fence hapart, hbefore.dangling, hafter.dangling]
    · rw [fenceAfter_append, hbefore.fence, hafter.fence]

/-! ### Bodies -/

/-- A body whose first and last lines are not blank is read back from its region. -/
def Solid (body : Text) : Prop :=
  (∀ l, (lines body).head? = some l → l.all isWhitespace = false) ∧
    ∀ l, (lines body).getLast? = some l → l.all isWhitespace = false

theorem trimBlank_bodyLines (h : Solid body) : join (trimBlank (bodyLines body)) = body := by
  obtain ⟨first, more, hfirst⟩ := List.exists_cons_of_ne_nil (lines_ne_nil body)
  have hstart : (bodyLines body).dropWhile (fun l => l.all isWhitespace) = lines body ++ [[]] := by
    rw [bodyLines, List.dropWhile_cons_of_pos (by simp), hfirst, List.cons_append,
      List.dropWhile_cons_of_neg]
    rw [h.1 first (by rw [hfirst]; rfl)]
    exact Bool.false_ne_true
  obtain ⟨front, last, hlast⟩ := List.eq_nil_or_concat (lines body) |>.resolve_left
    (lines_ne_nil body)
  have hback : (lines body ++ [[]]).reverse.dropWhile (fun l => l.all isWhitespace) =
      (lines body).reverse := by
    rw [List.reverse_append, List.reverse_singleton, List.singleton_append,
      List.dropWhile_cons_of_pos (by simp), hlast, List.concat_eq_append, List.reverse_append,
      List.reverse_singleton, List.singleton_append, List.dropWhile_cons_of_neg]
    rw [h.2 last (by rw [hlast, List.concat_eq_append, List.getLast?_concat])]
    exact Bool.false_ne_true
  rw [trimBlank, hstart, hback, List.reverse_reverse, join_lines]

/-- **The body written is the body read back.** -/
theorem regionBody_upsert (htag : IsTag tag) (hbody : ∀ l ∈ lines body, Plain l)
    (hsolid : Solid body) (h : Fits content tag) :
    regionBody (upsert content tag body) tag = some body := by
  rw [regionBody_eq, (scans_upsert htag hbody h).regions, find?_setRegion, Option.map_some,
    trimBlank_bodyLines hsolid]

theorem regionBody_upsert_ne {tag' : Text} (hne : tag' ≠ tag) (htag : IsTag tag)
    (hbody : ∀ l ∈ lines body, Plain l) (h : Fits content tag) :
    regionBody (upsert content tag body) tag' = regionBody content tag' := by
  rw [regionBody_eq, (scans_upsert htag hbody h).regions, find?_setRegion_ne hne, ← regionBody_eq]

theorem regionBody_remove_ne {tag' : Text} (hne : tag' ≠ tag) (content : Text) :
    regionBody (remove content tag) tag' = regionBody content tag' := by
  have herase (rs : List (Text × List Text)) :
      (rs.eraseP fun r => r.1 = tag).find? (fun r => r.1 = tag') =
        rs.find? fun r => r.1 = tag' := by
    induction rs with
    | nil => rfl
    | cons r rs ih =>
      by_cases heq : r.1 = tag
      · rw [List.eraseP_cons_of_pos (by simpa using heq), List.find?_cons_of_neg]
        simpa [heq] using Ne.symm hne
      · rw [List.eraseP_cons_of_neg (by simpa using heq), List.find?_cons, List.find?_cons, ih]
  rw [regionBody_eq, (scans_remove content tag).regions, herase, ← regionBody_eq]

end edits

end Softfig.Doc
