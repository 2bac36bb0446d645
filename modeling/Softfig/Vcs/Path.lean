import Mathlib.Data.String.Basic

/-!
Garden-relative paths as the standard library reads them.

A path is the list of its components: an absolute path starts with the root, a
leading `.` is kept, an interior `.` and an empty segment are dropped, `..` is
kept. Two spellings with the same components are the same path.

- `parse_asStr`: a component's own text parses back to that component;
- `join_asStr`: pushing a component's text appends the component.
-/

namespace Softfig.Vcs

/-- A file name: not empty, without a slash, and neither `.` nor `..`. -/
def isFileName (chars : List Char) : Bool :=
  chars != [] && !chars.contains '/' && chars != ['.'] && chars != ['.', '.']

structure FileName where
  text : String
  valid : isFileName text.toList = true
  deriving DecidableEq

theorem FileName.noSlash (n : FileName) : '/' ∉ n.text.toList := by
  have := n.valid
  simp only [isFileName, Bool.and_eq_true, Bool.not_eq_true', List.contains_eq_mem,
    decide_eq_false_iff_not] at this
  exact this.1.1.2

theorem FileName.ne_special (n : FileName) :
    n.text.toList ≠ [] ∧ n.text.toList ≠ ['.'] ∧ n.text.toList ≠ ['.', '.'] := by
  have := n.valid
  simp only [isFileName, Bool.and_eq_true, bne_iff_ne, ne_eq] at this
  exact ⟨this.1.1.1, this.1.2, this.2⟩

inductive Component where
  | rootDir
  | curDir
  | parentDir
  | normal (name : FileName)
  deriving DecidableEq

def Component.asStr : Component → String
  | .rootDir => "/"
  | .curDir => "."
  | .parentDir => ".."
  | .normal name => name.text

/-- Components that can stand behind another one. -/
def Component.isInterior : Component → Bool
  | .rootDir => false
  | .curDir => false
  | .parentDir => true
  | .normal _ => true

/-- A path: root and `.` stand only at the front. -/
@[ext]
structure Path where
  components : List Component
  valid : ∀ c ∈ components.tail, c.isInterior = true
  deriving DecidableEq

/-! ### Spelled paths -/

def splitSlash : List Char → List (List Char)
  | [] => [[]]
  | c :: cs =>
    if c = '/' then [] :: splitSlash cs
    else
      match splitSlash cs with
      | [] => [[c]]
      | s :: ss => (c :: s) :: ss

/-- A segment that is not the first one. -/
def segment? (chars : List Char) : Option Component :=
  if chars = ['.', '.'] then some .parentDir
  else if h : isFileName (String.ofList chars).toList = true then
    some (.normal ⟨String.ofList chars, h⟩)
  else none

/-- The first segment, with the number of segments behind it. -/
def firstSegment? (chars : List Char) (behind : Nat) : Option Component :=
  if chars = ['.'] then some .curDir
  else if chars = [] then (if behind = 0 then none else some .rootDir)
  else segment? chars

def parseComponents (chars : List Char) : List Component :=
  match splitSlash chars with
  | [] => []
  | first :: rest => (firstSegment? first rest.length).toList ++ rest.filterMap segment?

theorem segment?_isInterior {chars : List Char} {c : Component} (h : segment? chars = some c) :
    c.isInterior = true := by
  unfold segment? at h
  split_ifs at h <;> cases h <;> rfl

theorem parseComponents_valid (chars : List Char) :
    ∀ c ∈ (parseComponents chars).tail, c.isInterior = true := by
  have hrest : ∀ (rest : List (List Char)), ∀ c ∈ rest.filterMap segment?, c.isInterior = true := by
    intro rest c hc
    obtain ⟨seg, -, hseg⟩ := List.mem_filterMap.mp hc
    exact segment?_isInterior hseg
  intro c hc
  unfold parseComponents at hc
  split at hc
  · cases hc
  · rename_i first rest _
    cases hfirst : firstSegment? first rest.length with
    | none =>
      rw [hfirst] at hc
      exact hrest rest c (List.mem_of_mem_tail hc)
    | some head =>
      rw [hfirst] at hc
      exact hrest rest c hc

namespace Path

/-- The components of a spelled path. -/
def parse (s : String) : Path := ⟨parseComponents s.toList, parseComponents_valid _⟩

/-- The texts of the components (`path_components`). -/
def names (p : Path) : List String := p.components.map Component.asStr

def empty : Path := ⟨[], nofun⟩

/-- The components behind the first `n`. -/
def drop (p : Path) (n : Nat) : Path :=
  ⟨p.components.drop n, fun c hc => p.valid c (by
    rw [List.tail_drop] at hc
    exact List.mem_of_mem_drop (by rwa [Nat.add_comm, ← List.drop_drop, List.drop_one] at hc))⟩

/-- What `PathBuf::push` appends: a leading `.` is dropped behind a component. -/
def pushed (p q : List Component) : List Component :=
  match q with
  | .rootDir :: _ => q
  | .curDir :: rest => if p = [] then q else p ++ rest
  | _ => p ++ q

theorem pushed_valid (p q : Path) :
    ∀ c ∈ (pushed p.components q.components).tail, c.isInterior = true := by
  obtain ⟨p, hp⟩ := p
  obtain ⟨q, hq⟩ := q
  intro c hc
  cases p with
  | nil => cases q with
    | nil => cases hc
    | cons d q => cases d <;> exact hq c hc
  | cons d p =>
    have happ : ∀ r : List Component, (∀ e ∈ r, e.isInterior = true) → c ∈ p ++ r →
        c.isInterior = true := fun r hr hmem =>
      (List.mem_append.mp hmem).elim (hp c) (hr c)
    cases q with
    | nil => exact hp c (by simpa [pushed] using hc)
    | cons e q =>
      have hall : e.isInterior = true → ∀ x ∈ e :: q, x.isInterior = true := fun he x hx =>
        (List.mem_cons.mp hx).elim (fun h => h ▸ he) (hq x)
      cases e with
      | rootDir => exact hq c hc
      | curDir => exact happ q hq (by simpa [pushed] using hc)
      | parentDir => exact happ _ (hall rfl) (by simpa [pushed] using hc)
      | normal n => exact happ _ (hall rfl) (by simpa [pushed] using hc)

/-- `PathBuf::push`: an absolute path replaces, any other one is appended. -/
def push (p q : Path) : Path := ⟨pushed p.components q.components, pushed_valid p q⟩

/-- `Path::join` with one spelled name. -/
def join (p : Path) (name : String) : Path := p.push (parse name)

def startsWith (p mount : Path) : Bool := mount.components.isPrefixOf p.components

/-- `Path::strip_prefix`. -/
def stripPrefix? (p mount : Path) : Option Path :=
  if p.startsWith mount then some (p.drop mount.components.length) else none

end Path

/-! ### Components and their texts -/

theorem splitSlash_noSlash {chars : List Char} (h : '/' ∉ chars) : splitSlash chars = [chars] := by
  induction chars with
  | nil => rfl
  | cons c cs ih =>
    have hc : c ≠ '/' := fun hc => h (hc ▸ List.mem_cons_self)
    rw [splitSlash, if_neg hc, ih fun hcs => h (List.mem_cons_of_mem _ hcs)]

theorem segment?_fileName (n : FileName) : segment? n.text.toList = some (.normal n) := by
  have hn : isFileName (String.ofList n.text.toList).toList = true := by
    simpa using n.valid
  rw [segment?, if_neg n.ne_special.2.2, dif_pos hn]
  simp

theorem splitSlash_ne_nil (s : List Char) : splitSlash s ≠ [] := by
  cases s with
  | nil => exact List.cons_ne_nil _ _
  | cons c s =>
    simp only [splitSlash]
    split_ifs
    · exact List.cons_ne_nil _ _
    · split <;> exact List.cons_ne_nil _ _

theorem splitSlash_append (s : List Char) {t : List Char} (ht : '/' ∉ t) :
    splitSlash (s ++ '/' :: t) = splitSlash s ++ [t] := by
  induction s with
  | nil => simp [splitSlash, splitSlash_noSlash ht]
  | cons c s ih =>
    by_cases hc : c = '/'
    · simp [splitSlash, hc, ih]
    · cases hs : splitSlash s with
      | nil => exact absurd hs (splitSlash_ne_nil s)
      | cons first rest => simp [splitSlash, hc, ih, hs]

/-- Only the empty text is one empty segment. -/
theorem eq_nil_of_splitSlash {s : List Char} (h : splitSlash s = [[]]) : s = [] := by
  cases s with
  | nil => rfl
  | cons c s =>
    simp only [splitSlash] at h
    split_ifs at h
    · exact absurd (List.cons.inj h).2 (splitSlash_ne_nil s)
    · split at h <;> simp at h

/-- A segment behind a spelled path adds its component. -/
theorem parseComponents_append {s t : List Char} (hs : s ≠ []) (ht : '/' ∉ t) :
    parseComponents (s ++ '/' :: t) = parseComponents s ++ (segment? t).toList := by
  unfold parseComponents
  rw [splitSlash_append s ht]
  cases hsplit : splitSlash s with
  | nil => exact absurd hsplit (splitSlash_ne_nil s)
  | cons first rest =>
    have hfirst : firstSegment? first (rest ++ [t]).length = firstSegment? first rest.length := by
      by_cases hempty : first = []
      · subst hempty
        have hrest : rest ≠ [] := by
          rintro rfl
          exact hs (eq_nil_of_splitSlash hsplit)
        simp [firstSegment?, hrest]
      · simp [firstSegment?, hempty]
    simp only [List.cons_append, hfirst, List.filterMap_append, List.append_assoc]
    cases hseg : segment? t <;> simp [hseg]

theorem segment?_interior {c : Component} (h : c.isInterior = true) :
    segment? c.asStr.toList = some c ∧ '/' ∉ c.asStr.toList := by
  cases c with
  | rootDir => cases h
  | curDir => cases h
  | parentDir => decide
  | normal n => exact ⟨segment?_fileName n, n.noSlash⟩

namespace Path

/-- A component's own text parses back to that component. -/
theorem parse_asStr (c : Component) : (parse c.asStr).components = [c] := by
  cases c with
  | rootDir => decide
  | curDir => decide
  | parentDir => decide
  | normal n =>
    simp only [Component.asStr, parse, parseComponents, splitSlash_noSlash n.noSlash]
    rw [firstSegment?, if_neg n.ne_special.2.1, if_neg n.ne_special.1, segment?_fileName]
    rfl

theorem asStr_injective {c d : Component} (h : c.asStr = d.asStr) : c = d := by
  have := (parse_asStr c).symm.trans (h ▸ parse_asStr d)
  exact List.singleton_inj.mp this

theorem names_injective {p q : Path} (h : p.names = q.names) : p = q :=
  Path.ext (List.map_injective_iff.mpr (fun _ _ => asStr_injective) h)

/-- Pushing a component's text appends the component, at the front of an empty
path or, for one that can stand there, behind others. -/
theorem join_asStr {p : Path} {c : Component} (h : p.components = [] ∨ c.isInterior = true) :
    (p.join c.asStr).components = p.components ++ [c] := by
  simp only [join, push, parse_asStr]
  rcases h with h | h
  · rw [h]
    cases c <;> rfl
  · cases c <;> first | rfl | cases h

theorem startsWith_iff {p mount : Path} :
    p.startsWith mount = true ↔ mount.components <+: p.components := by
  simp [startsWith]

theorem startsWith_iff_names {p mount : Path} :
    p.startsWith mount = true ↔ mount.names <+: p.names :=
  startsWith_iff.trans
    (List.prefix_map_iff_of_injective fun _ _ => asStr_injective).symm

/-- What is pushed on a path is below it, unless it is absolute. -/
theorem startsWith_push {mount rel : Path} (h : rel.components.head? ≠ some .rootDir) :
    (mount.push rel).startsWith mount = true := by
  rw [startsWith_iff]
  show mount.components <+: pushed mount.components rel.components
  cases hrel : rel.components with
  | nil => exact List.prefix_append _ _
  | cons c rest =>
    cases c with
    | rootDir => simp [hrel] at h
    | curDir =>
      simp only [pushed]
      split_ifs with hmount
      · rw [hmount]
        exact List.nil_prefix
      · exact List.prefix_append _ _
    | parentDir => exact List.prefix_append _ _
    | normal n => exact List.prefix_append _ _

theorem stripPrefix?_eq_some {p mount rel : Path} (h : p.stripPrefix? mount = some rel) :
    p.components = mount.components ++ rel.components := by
  unfold stripPrefix? at h
  split_ifs at h with hbelow
  obtain ⟨rest, hrest⟩ := startsWith_iff.mp hbelow
  cases h
  simp [drop, ← hrest]

/-- Pushing what stripping a prefix left gives the path back. -/
theorem push_of_stripPrefix? {p mount rel : Path} (h : p.stripPrefix? mount = some rel) :
    mount.push rel = p := by
  have hp := stripPrefix?_eq_some h
  refine Path.ext ?_
  rw [hp]
  have hvalid := p.valid
  rw [hp] at hvalid
  cases hm : mount.components with
  | nil =>
    cases hr : rel.components with
    | nil => simp [push, pushed, hm, hr]
    | cons c r => cases c <;> simp [push, pushed, hm, hr]
  | cons d m =>
    cases hr : rel.components with
    | nil => simp [push, pushed, hm, hr]
    | cons c r =>
      have hc : c.isInterior = true := hvalid c (by simp [hm, hr])
      cases c with
      | rootDir => cases hc
      | curDir => cases hc
      | parentDir => simp [push, pushed, hm, hr]
      | normal n => simp [push, pushed, hm, hr]

end Path

end Softfig.Vcs
