import Mathlib.Data.List.Basic
import Softfig.Queue.Garden

/-!
Managed regions of a markdown document: daemon-owned blocks between two marker
lines outside fenced code.

A document is the list of its characters, and its lines are what `split('\n')`
gives. Lines are scanned with one bit of state, whether a fence is open.

- `mem_spansOf`: the marker lines of a region stand outside fences, in order;
- `fence_span`: a region opens and closes outside fences, so what it holds leaves
  the fence as it was.
-/

namespace Softfig.Doc

open Softfig.Queue (isWhitespace trimStart trim)

abbrev Text := List Char

instance lawfulBEqText : LawfulBEq Text := inferInstanceAs (LawfulBEq (List Char))

/-- `split('\n')` -/
def lines (content : Text) : List Text := content.splitOn '\n'

/-- `join("\n")` -/
def join (ls : List Text) : Text := ['\n'].intercalate ls

theorem join_lines (content : Text) : join (lines content) = content :=
  List.intercalate_splitOn '\n'

theorem join_cons {ls : List Text} (l : Text) (hne : ls ≠ []) :
    join (l :: ls) = l ++ '\n' :: join ls := by
  rw [join, List.intercalate_cons_of_ne_nil hne, List.append_assoc]
  rfl

theorem join_singleton (l : Text) : join [l] = l := by simp [join]

theorem lines_join {ls : List Text} (hlines : ∀ l ∈ ls, '\n' ∉ l) (hne : ls ≠ []) :
    lines (join ls) = ls :=
  List.splitOn_intercalate '\n' hlines hne

theorem lines_ne_nil (content : Text) : lines content ≠ [] := List.splitOn_ne_nil _ _

theorem lines_append (a b : Text) : lines (a ++ '\n' :: b) = lines a ++ lines b :=
  List.splitOn_append_cons_self a b

/-- No line holds a line break. -/
theorem newline_notMem_lines (content : Text) : ∀ l ∈ lines content, '\n' ∉ l := by
  induction content with
  | nil => simp [lines]
  | cons c cs ih =>
    rw [lines, List.splitOn_cons_eq_if_modifyHead]
    by_cases hc : c = '\n'
    · simp only [hc, BEq.rfl, if_true, List.mem_cons, forall_eq_or_imp]
      exact ⟨List.not_mem_nil, ih⟩
    · rw [if_neg (by simpa using hc)]
      cases hrest : List.splitOn '\n' cs with
      | nil => simp
      | cons l ls =>
        rw [lines, hrest] at ih
        simp only [List.modifyHead_cons, List.mem_cons, forall_eq_or_imp] at ih ⊢
        refine ⟨?_, ih.2⟩
        rintro (rfl | hmem)
        · exact hc rfl
        · exact ih.1 hmem

/-! ### White space -/

section whitespace

variable {l : Text} {c : Char}

theorem trimStart_concat (hc : isWhitespace c = true) :
    (trimStart l = [] ∧ trimStart (l ++ [c]) = []) ∨ trimStart (l ++ [c]) = trimStart l ++ [c] := by
  rw [trimStart, trimStart, List.dropWhile_append]
  cases hl : l.dropWhile isWhitespace with
  | nil => exact Or.inl ⟨rfl, by simp [hc]⟩
  | cons d rest => exact Or.inr rfl

theorem trim_concat (hc : isWhitespace c = true) : trim (l ++ [c]) = trim l := by
  rw [trim, trim]
  rcases trimStart_concat (l := l) hc with ⟨hl, hlc⟩ | hlc
  · rw [hl, hlc]
  · rw [hlc, List.reverse_append, List.reverse_singleton, List.singleton_append]
    exact congrArg List.reverse (List.dropWhile_cons_of_pos hc)

/-- A text that white space neither begins nor ends is not trimmed. -/
theorem trim_of_ends {c d : Char} {l k : Text} (hl : l = c :: k) (hc : isWhitespace c = false)
    (hlast : l.getLast? = some d) (hd : isWhitespace d = false) : trim l = l := by
  have hstart : trimStart l = l := by
    rw [hl, trimStart, List.dropWhile_cons_of_neg (by simp [hc])]
  obtain ⟨k', hk'⟩ := List.getLast?_eq_some_iff.mp hlast
  have hback : trimStart l.reverse = l.reverse := by
    rw [hk', List.reverse_append, List.reverse_singleton, List.singleton_append, trimStart,
      List.dropWhile_cons_of_neg (by simp [hd])]
  rw [trim, hstart, hback, List.reverse_reverse]

end whitespace

/-! ### Fences -/

def isFence (line : Text) : Bool :=
  "```".toList.isPrefixOf (trimStart line) || "~~~".toList.isPrefixOf (trimStart line)

/-- Whether a fence is open after these lines. -/
def fenceAfter (inFence : Bool) (ls : List Text) : Bool :=
  ls.foldl (fun inFence l => if isFence l then !inFence else inFence) inFence

/-- Every line inside a fenced code block, fence lines included. -/
def fenceMask : Bool → List Text → List Bool
  | _, [] => []
  | inFence, l :: ls =>
    if isFence l then true :: fenceMask (!inFence) ls else inFence :: fenceMask inFence ls

@[simp]
theorem fenceAfter_nil (inFence : Bool) : fenceAfter inFence [] = inFence := rfl

theorem fenceAfter_cons (inFence : Bool) (l : Text) (ls : List Text) :
    fenceAfter inFence (l :: ls) = fenceAfter (if isFence l then !inFence else inFence) ls := rfl

theorem fenceAfter_append (inFence : Bool) (ls ls' : List Text) :
    fenceAfter inFence (ls ++ ls') = fenceAfter (fenceAfter inFence ls) ls' :=
  List.foldl_append

/-- An open fence only turns the result round. -/
theorem fenceAfter_not (inFence : Bool) (ls : List Text) :
    fenceAfter (!inFence) ls = !fenceAfter inFence ls := by
  induction ls generalizing inFence with
  | nil => rfl
  | cons l ls ih =>
    rw [fenceAfter_cons, fenceAfter_cons]
    split
    · exact ih _
    · exact ih _

theorem fenceAfter_same {ls : List Text} (h : fenceAfter false ls = false) (inFence : Bool) :
    fenceAfter inFence ls = inFence := by
  cases inFence with
  | false => exact h
  | true => rw [show true = !false from rfl, fenceAfter_not, h]

theorem fenceMask_get (inFence : Bool) {ls : List Text} {i : Nat} {l : Text}
    (hl : ls[i]? = some l) :
    (fenceMask inFence ls)[i]? = some (isFence l || fenceAfter inFence (ls.take i)) := by
  induction ls generalizing inFence i with
  | nil => cases hl
  | cons k ls ih =>
    rw [fenceMask]
    cases i with
    | zero =>
      obtain rfl : k = l := Option.some.inj hl
      by_cases hk : isFence k = true
      · simp [hk]
      · simp [hk]
    | succ i =>
      rw [List.getElem?_cons_succ] at hl
      rw [List.take_succ_cons, fenceAfter_cons]
      by_cases hk : isFence k = true
      · simpa [hk] using ih (!inFence) hl
      · simpa [hk] using ih inFence hl

/-! ### Regions -/

/-- A region: its tag and its two marker lines. -/
structure Span where
  tag : Text
  openLine : Nat
  closeLine : Nat
  deriving DecidableEq, Repr

/-- The tag of an open marker line. -/
def openTag (line : Text) : Option Text :=
  match (trim line).dropPrefix? "<!-- softfig:".toList with
  | none => none
  | some rest =>
    match rest.dropSuffix? "-->".toList with
    | none => none
    | some tag => if trim tag = [] then none else some (trim tag)

def closeMarker (tag : Text) : Text := "<!-- /softfig:".toList ++ tag ++ " -->".toList

/-- The tag a line opens, outside fences. -/
def openAt (fenced : Bool) (line : Text) : Option Text := if fenced then none else openTag line

/-- Regions from line `i` on, after `skip` lines; an open marker without its close is
passed over, and scanning resumes after a close, so regions never nest. -/
def spansFrom : Nat → Nat → List (Text × Bool) → List Span
  | _, _, [] => []
  | i, skip + 1, _ :: rest => spansFrom (i + 1) skip rest
  | i, 0, (l, fenced) :: rest =>
    match openAt fenced l with
    | none => spansFrom (i + 1) 0 rest
    | some tag =>
      match rest.findIdx? fun p => !p.2 && trim p.1 = closeMarker tag with
      | none => spansFrom (i + 1) 0 rest
      | some k => ⟨tag, i, i + 1 + k⟩ :: spansFrom (i + 1) (k + 1) rest

def spansOf (ls : List Text) : List Span := spansFrom 0 0 (ls.zip (fenceMask false ls))

def hasRegion (content tag : Text) : Bool := (spansOf (lines content)).any fun s => s.tag = tag

/-- A body without its blank first and last lines. -/
def trimBlank (body : List Text) : List Text :=
  ((body.dropWhile fun l => l.all isWhitespace).reverse.dropWhile
    fun l => l.all isWhitespace).reverse

/-- The lines `[start, stop)`. -/
def slice (ls : List Text) (start stop : Nat) : List Text := (ls.take stop).drop start

def regions (content : Text) : List (Text × Text) :=
  (spansOf (lines content)).map fun s =>
    (s.tag, join (trimBlank (slice (lines content) (s.openLine + 1) s.closeLine)))

/-- The tags whose region differs between two documents, in first-seen order. -/
def changedRegions (before after : Text) : List Text :=
  let b := regions before
  let a := regions after
  if b = a then []
  else
    let bodies (rs : List (Text × Text)) (tag : Text) :=
      (rs.filter fun r => r.1 = tag).map Prod.snd
    let changed := ((b ++ a).map Prod.fst).filter fun tag => bodies b tag ≠ bodies a tag
    if changed.eraseDups = [] then (b.map Prod.fst).eraseDups else changed.eraseDups

/-! ### What a region holds -/

/-- A marker line stands outside fences. -/
def Outside (ls : List Text) (i : Nat) : Prop :=
  ∃ l, ls[i]? = some l ∧ isFence l = false ∧ fenceAfter false (ls.take i) = false

theorem mem_spansFrom {pairs : List (Text × Bool)} {i skip : Nat} {s : Span}
    (h : s ∈ spansFrom i skip pairs) :
    i ≤ s.openLine ∧ s.openLine < s.closeLine ∧
      (∃ l, pairs[s.openLine - i]? = some (l, false)) ∧
      ∃ l, pairs[s.closeLine - i]? = some (l, false) := by
  induction pairs generalizing i skip with
  | nil =>
    rw [spansFrom] at h
    cases h
  | cons p rest ih =>
    have hlater {skip : Nat} (h : s ∈ spansFrom (i + 1) skip rest) :
        i ≤ s.openLine ∧ s.openLine < s.closeLine ∧
          (∃ l, (p :: rest)[s.openLine - i]? = some (l, false)) ∧
          ∃ l, (p :: rest)[s.closeLine - i]? = some (l, false) := by
      obtain ⟨hle, hlt, hopen, hclose⟩ := ih h
      have hshift (n : Nat) (hn : i + 1 ≤ n) : (p :: rest)[n - i]? = rest[n - (i + 1)]? := by
        rw [show n - i = n - (i + 1) + 1 by omega, List.getElem?_cons_succ]
      refine ⟨by omega, hlt, ?_, ?_⟩
      · rwa [hshift _ hle]
      · rwa [hshift _ (by omega)]
    obtain ⟨l, fenced⟩ := p
    cases skip with
    | succ skip => exact hlater h
    | zero =>
      rw [spansFrom] at h
      cases htag : openAt fenced l with
      | none =>
        simp only [htag] at h
        exact hlater h
      | some tag =>
        simp only [htag] at h
        split at h
        · exact hlater h
        · rename_i k hfound
          rcases List.mem_cons.mp h with rfl | h
          · have hfenced : fenced = false := by
              cases fenced with
              | false => rfl
              | true => cases htag
            obtain ⟨hk, hmatch, -⟩ := List.findIdx?_eq_some_iff_getElem.mp hfound
            refine ⟨le_refl _, by simp only; omega, ⟨l, ?_⟩, ⟨rest[k].1, ?_⟩⟩
            · simp [hfenced]
            · simp only [Bool.and_eq_true, Bool.not_eq_true'] at hmatch
              show ((l, fenced) :: rest)[i + 1 + k - i]? = _
              rw [show i + 1 + k - i = k + 1 by omega, List.getElem?_cons_succ,
                List.getElem?_eq_getElem hk, ← hmatch.1]
          · exact hlater h

/-- The marker lines of a region are two lines of the document, in order and outside
fences. -/
theorem mem_spansOf {ls : List Text} {s : Span} (h : s ∈ spansOf ls) :
    s.openLine < s.closeLine ∧ Outside ls s.openLine ∧ Outside ls s.closeLine := by
  obtain ⟨-, hlt, hopen, hclose⟩ := mem_spansFrom h
  have houtside {i : Nat} (hi : ∃ l, (ls.zip (fenceMask false ls))[i - 0]? = some (l, false)) :
      Outside ls i := by
    obtain ⟨l, hl⟩ := hi
    rw [Nat.sub_zero, List.getElem?_zip_eq_some] at hl
    obtain ⟨hl, hmask⟩ := hl
    rw [fenceMask_get _ hl, Option.some.injEq, Bool.or_eq_false_iff] at hmask
    exact ⟨l, hl, hmask.1, hmask.2⟩
  exact ⟨hlt, houtside hopen, houtside hclose⟩

theorem Outside.lt {ls : List Text} {i : Nat} (h : Outside ls i) : i < ls.length := by
  obtain ⟨l, hl, -⟩ := h
  exact (List.getElem?_eq_some_iff.mp hl).1

/-- The fence is closed after a line outside fences, too. -/
theorem Outside.after {ls : List Text} {i : Nat} (h : Outside ls i) :
    fenceAfter false (ls.take (i + 1)) = false := by
  obtain ⟨l, hl, hfence, hbefore⟩ := h
  rw [List.take_add_one, hl, fenceAfter_append, hbefore]
  simp [fenceAfter_cons, hfence]

/-- What stands between two places outside fences leaves the fence as it was. -/
theorem fence_slice {ls : List Text} {start stop : Nat} (hle : start ≤ stop)
    (hstart : fenceAfter false (ls.take start) = false)
    (hstop : fenceAfter false (ls.take stop) = false) :
    fenceAfter false (slice ls start stop) = false := by
  have hsplit : ls.take stop = ls.take start ++ slice ls start stop := by
    have hparts := List.take_append_drop start (ls.take stop)
    rw [List.take_take, Nat.min_eq_left hle] at hparts
    exact hparts.symm
  rw [hsplit, fenceAfter_append, hstart] at hstop
  exact hstop

theorem fence_span {ls : List Text} {s : Span} (h : s ∈ spansOf ls) :
    fenceAfter false (slice ls s.openLine (s.closeLine + 1)) = false := by
  obtain ⟨hlt, hopen, hclose⟩ := mem_spansOf h
  obtain ⟨l, -, -, hbefore⟩ := hopen
  exact fence_slice (by omega) hbefore hclose.after

end Softfig.Doc
