import Softfig.LayerB.OpenFlags

/-!
Substitutions of the bodies of a weave, and the pieces between them.

- `withSubstitutions_subsAt`: replacing bodies keeps the weave around them;
- `outside_weave`, `sameAround_of_outside`: the bytes outside the bodies determine the
  gaps, the ids and the tail;
- `weave_injective`: a weave determines its bodies, since none holds a closing tag.
-/

namespace Softfig.LayerB

open Softfig.Store (Bytes)
open Softfig.Lib

/-! ### Slices -/

theorem slice_append (pre body rest : Bytes) :
    (⟨pre.length, pre.length + body.length⟩ : ByteRange).slice (pre ++ (body ++ rest)) = body := by
  have htake : (pre ++ (body ++ rest)).take (pre.length + body.length) = pre ++ body := by
    rw [← List.append_assoc, ← List.length_append, List.take_left]
  rw [ByteRange.slice, htake, List.drop_left]

theorem splice_append (pre body rest new : Bytes) :
    splice (pre ++ (body ++ rest)) (⟨pre.length, pre.length + body.length⟩, new) =
      pre ++ (new ++ rest) := by
  rw [splice, List.take_left, ← List.append_assoc, ← List.length_append, List.drop_left,
    List.append_assoc]

/-! ### Substitutions in order -/

/-- A list in ascending order of its starts is applied from its end. -/
theorem withSubstitutions_ascending (content : Bytes) {subs : List (ByteRange × Bytes)}
    (h : subs.Pairwise fun a b => a.1.start < b.1.start) :
    withSubstitutions content subs = subs.foldr (fun sub content => splice content sub) content := by
  have hlast : ∀ (a : ByteRange × Bytes) (l : List (ByteRange × Bytes)),
      (∀ b ∈ l, a.1.start < b.1.start) →
        l.orderedInsert (fun a b => b.1.start ≤ a.1.start) a = l ++ [a] := by
    intro a l hlater
    induction l with
    | nil => rfl
    | cons b l ih =>
      simp only [List.mem_cons, forall_eq_or_imp] at hlater
      rw [List.orderedInsert_cons, if_neg (Nat.not_le.mpr hlater.1), ih hlater.2]
      rfl
  have hsort : subs.insertionSort (fun a b => b.1.start ≤ a.1.start) = subs.reverse := by
    induction subs with
    | nil => rfl
    | cons a subs ih =>
      rw [List.pairwise_cons] at h
      rw [List.insertionSort_cons, ih h.2, List.reverse_cons]
      refine hlast a _ fun b hb => h.1 b (List.mem_reverse.mp hb)
  rw [withSubstitutions, hsort, List.foldl_reverse]

/-- The substitutions of these new bodies in a weave that begins at byte `pos`. -/
def subsAt : Nat → List (Region × Option Bytes) → List (ByteRange × Bytes)
  | _, [] => []
  | pos, (r, new) :: more =>
    let start := pos + (r.gap ++ openTag r.id).length
    let later := subsAt (start + r.body.length + closeMark.length) more
    match new with
    | none => later
    | some body => (⟨start, start + r.body.length⟩, body) :: later

/-- The region with its new body, if it has one. -/
def reseat (x : Region × Option Bytes) : Region := { x.1 with body := x.2.getD x.1.body }

theorem start_le_of_mem_subsAt {pos : Nat} {l : List (Region × Option Bytes)}
    {sub : ByteRange × Bytes} (h : sub ∈ subsAt pos l) : pos < sub.1.start := by
  induction l generalizing pos with
  | nil => cases h
  | cons x more ih =>
    obtain ⟨r, new⟩ := x
    have hpos : 0 < (r.gap ++ openTag r.id).length := by
      rw [List.length_append, length_openTag]
      omega
    cases new with
    | none =>
      have := ih h
      omega
    | some body =>
      obtain rfl | hmem := List.mem_cons.mp h
      · dsimp only
        omega
      · have := ih hmem
        omega

theorem subsAt_ascending (pos : Nat) (l : List (Region × Option Bytes)) :
    (subsAt pos l).Pairwise fun a b => a.1.start < b.1.start := by
  induction l generalizing pos with
  | nil => exact List.Pairwise.nil
  | cons x more ih =>
    obtain ⟨r, new⟩ := x
    cases new with
    | none => exact ih _
    | some body =>
      refine List.Pairwise.cons ?_ (ih _)
      intro sub hsub
      have := start_le_of_mem_subsAt hsub
      dsimp only
      omega

theorem foldr_subsAt (pre : Bytes) (l : List (Region × Option Bytes)) (tail : Bytes) :
    (subsAt pre.length l).foldr (fun sub content => splice content sub)
        (pre ++ weave (l.map Prod.fst) tail) = pre ++ weave (l.map reseat) tail := by
  induction l generalizing pre with
  | nil => rfl
  | cons x more ih =>
    obtain ⟨r, new⟩ := x
    have hpos : pre.length + (r.gap ++ openTag r.id).length + r.body.length + closeMark.length =
        (pre ++ (r.gap ++ (openTag r.id ++ (r.body ++ closeMark)))).length := by
      simp only [List.length_append, Nat.add_assoc]
    have hlater := ih (pre ++ (r.gap ++ (openTag r.id ++ (r.body ++ closeMark))))
    rw [← hpos] at hlater
    simp only [List.append_assoc] at hlater
    cases new with
    | none =>
      simp only [subsAt, List.map_cons, weave, reseat, Option.getD_none]
      exact hlater
    | some body =>
      simp only [subsAt, List.map_cons, weave, reseat, Option.getD_some, List.foldr_cons]
      rw [hlater]
      have hsplice := splice_append (pre ++ (r.gap ++ openTag r.id)) r.body
        (closeMark ++ weave (more.map reseat) tail) body
      simp only [List.append_assoc, List.length_append] at hsplice ⊢
      exact hsplice

/-- **Substituting bodies keeps what is around them.** -/
theorem withSubstitutions_subsAt (l : List (Region × Option Bytes)) (tail : Bytes) :
    withSubstitutions (weave (l.map Prod.fst) tail) (subsAt 0 l) =
      weave (l.map reseat) tail := by
  rw [withSubstitutions_ascending _ (subsAt_ascending 0 l)]
  exact foldr_subsAt [] l tail

/-- **One body in the place of every other.** -/
theorem withSubstitutions_const (cipher : RegionCipher) (path : String) (regions : List Region)
    (tail body : Bytes) :
    withSubstitutions (weave regions tail)
        ((spansAt cipher path 0 regions).map fun span => (span.body, body)) =
      weave (regions.map fun r => { r with body := body }) tail := by
  have hsubs : ∀ pos, (spansAt cipher path pos regions).map (fun span => (span.body, body)) =
      subsAt pos (regions.map fun r => (r, some body)) := by
    intro pos
    induction regions generalizing pos with
    | nil => rfl
    | cons r more ih => rw [spansAt, List.map_cons, List.map_cons, subsAt, ih]
  have hfirst : (regions.map fun r => (r, some body)).map Prod.fst = regions := by
    rw [List.map_map]
    exact List.map_id _
  rw [hsubs]
  nth_rewrite 1 [← hfirst]
  rw [withSubstitutions_subsAt, List.map_map]
  rfl

/-! ### The bytes outside the bodies -/

/-- The pieces of a file between the bodies of its spans, from byte `pos` on. -/
def outside (content : Bytes) : Nat → List RegionSpan → List Bytes
  | pos, [] => [content.drop pos]
  | pos, span :: spans =>
    ByteRange.slice ⟨pos, span.body.start⟩ content :: outside content span.body.stop spans

/-- The pieces of a weave, `lead` being before it. -/
def piecesOf : Bytes → List Region → Bytes → List Bytes
  | lead, [], tail => [lead ++ tail]
  | lead, r :: more, tail => (lead ++ (r.gap ++ openTag r.id)) :: piecesOf closeMark more tail

theorem outside_weave (cipher : RegionCipher) (path : String) (pre lead : Bytes)
    (regions : List Region) (tail : Bytes) :
    outside (pre ++ (lead ++ weave regions tail)) pre.length
        (spansAt cipher path (pre.length + lead.length) regions) =
      piecesOf lead regions tail := by
  induction regions generalizing pre lead with
  | nil => simp [spansAt, outside, weave, piecesOf]
  | cons r more ih =>
    have hslice := slice_append pre (lead ++ (r.gap ++ openTag r.id))
      (r.body ++ (closeMark ++ weave more tail))
    have hrest := ih (pre ++ (lead ++ (r.gap ++ (openTag r.id ++ r.body)))) closeMark
    simp only [List.append_assoc, List.length_append, Nat.add_assoc] at hslice hrest
    simp only [spansAt, outside, weave, piecesOf, List.length_append, Nat.add_assoc, hslice, hrest]

theorem sameAround_of_piecesOf {lead : Bytes} {regions regions' : List Region}
    {tail tail' : Bytes} (hids : List.Forall₂ (fun r r' => r'.id = r.id) regions regions')
    (h : piecesOf lead regions' tail' = piecesOf lead regions tail) :
    List.Forall₂ Region.SameAround regions regions' ∧ tail' = tail := by
  induction hids generalizing lead with
  | nil => exact ⟨List.Forall₂.nil, by simpa [piecesOf] using h⟩
  | @cons r r' more more' hid hmore ih =>
    rw [piecesOf, piecesOf, hid, List.cons.injEq] at h
    obtain ⟨hsame, htail⟩ := ih h.2
    have hgap : r'.gap = r.gap := by simpa using h.1
    exact ⟨List.Forall₂.cons ⟨hgap, hid⟩ hsame, htail⟩

theorem piecesOf_same {regions regions' : List Region}
    (h : List.Forall₂ Region.SameAround regions regions') (lead tail : Bytes) :
    piecesOf lead regions' tail = piecesOf lead regions tail := by
  induction h generalizing lead with
  | nil => rfl
  | cons hr _ ih => rw [piecesOf, piecesOf, hr.1, hr.2, ih]

/-- A body that no closing tag begins in, whatever follows its own. -/
def Closed (body : Bytes) : Prop := ∀ rest, Absent closes body (closeMark ++ rest)

theorem body_injective {body body' rest rest' : Bytes} (h : Closed body) (h' : Closed body')
    (heq : body ++ (closeMark ++ rest) = body' ++ (closeMark ++ rest')) :
    body = body' ∧ rest = rest' := by
  have hlen : body.length = body'.length := by
    have hfirst := nextCloseTag_of_absent (h rest)
    rw [heq, nextCloseTag_of_absent (h' rest')] at hfirst
    exact (Option.some.inj hfirst).symm
  obtain ⟨hbody, hrest⟩ := List.append_inj heq hlen
  exact ⟨hbody, List.append_cancel_left hrest⟩

/-- **A weave determines its bodies.** -/
theorem weave_injective {regions regions' : List Region} {tail : Bytes}
    (hsame : List.Forall₂ Region.SameAround regions regions')
    (h : ∀ r ∈ regions, Closed r.body) (h' : ∀ r ∈ regions', Closed r.body)
    (heq : weave regions tail = weave regions' tail) : regions = regions' := by
  induction hsame with
  | nil => rfl
  | @cons r r' more more' hr hmore ih =>
    simp only [List.mem_cons, forall_eq_or_imp] at h h'
    obtain ⟨gap, id, body⟩ := r
    obtain ⟨gap', id', body'⟩ := r'
    obtain ⟨rfl, rfl⟩ : gap' = gap ∧ id' = id := hr
    rw [weave, weave] at heq
    have heq := List.append_cancel_left (List.append_cancel_left heq)
    obtain ⟨rfl, hrest⟩ := body_injective h.1 h'.1 heq
    rw [ih h.2 h'.2 hrest]

end Softfig.LayerB
