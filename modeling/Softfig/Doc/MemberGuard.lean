import Softfig.Doc.ItemMeta
import Softfig.LayerB.Routing

/-!
What a fleet member may not change in a document: the pure guards on its old and its new text.

- `changedRegions_eq_nil`: no managed region changes exactly where the regions are the same;
- `memberVaultRefusal_eq_none`, `memberReservedRefusal_eq_none`, `memberFleetRefusal_eq_none`: what
  each guard lets pass;
- `DocKept.trans`: what every step keeps is kept.
-/

namespace Softfig.Doc

open Softfig.LayerB
open Softfig.Store (Bytes)
open Softfig.Queue (subDocReserved)

/-! ### Vault regions of a text -/

/-- The opening tags that count and the bodies, from a place on of which the first `skip` bytes
belong to the region read last. A tag that is not closed has an empty body, and ends the scan. -/
def scanBounds : Nat → Bytes → List Bool → List (Bytes × Bytes)
  | _, [], _ => []
  | skip + 1, _ :: rest, allow => scanBounds skip rest allow.tail
  | 0, b :: rest, allow =>
    match openTagAt? (b :: rest) with
    | none => scanBounds 0 rest allow.tail
    | some tag =>
      if allow.headD false = false then scanBounds 0 rest allow.tail
      else
        let opened := (b :: rest).take tag.length
        let after := (b :: rest).drop tag.length
        match nextCloseTag after with
        | none => [(opened, [])]
        | some close =>
          if (allow.drop tag.length).getD close false then
            (opened, after.take close) ::
              scanBounds (tag.length + close + closeMark.length - 1) rest allow.tail
          else [(opened, [])]

def scanRegionBounds (parser : RegionParser) (content : Bytes) : List (Bytes × Bytes) :=
  if isUtf8 content then scanBounds 0 content (mask parser.start content) else []

/-- `as_bytes` -/
def asBytes (text : Text) : Bytes := text.flatMap String.utf8EncodeChar

def vaultRegions (text : Text) (rel : String) : List (Bytes × Bytes) :=
  scanRegionBounds (parserFor rel) (asBytes text)

/-! ### The guards -/

inductive ReservedChange where
  | reads
  | adds
  | removes
  | changes
  deriving DecidableEq

/-- Why a member's change is refused. -/
inductive MemberRefusal where
  | vaultRegion
  | managedRegion (tags : List Text)
  | reservedLine (key : String) (change : ReservedChange)
  | fleetHold
  | itemDoc
  deriving DecidableEq

/-- The same opening tags, each with its body or the placeholder that is read for it. -/
def sameRegions (before after : List (Bytes × Bytes)) : Bool :=
  decide (before.length = after.length) && (before.zip after).all fun r =>
    decide (r.1.1 = r.2.1) && (decide (r.1.2 = r.2.2) || decide (r.2.2 = encryptedPlaceholder))

def memberVaultRefusal (rel : String) (old new : Option Text) : Option MemberRefusal :=
  let before := old.elim [] fun text => vaultRegions text rel
  let after := new.elim [] fun text => vaultRegions text rel
  if sameRegions before after then none else some .vaultRegion

/-- The change to the lines of one key, none where they and what is read of them stay. -/
def reservedChange (old new : Option Text) (key : String) : Option ReservedChange :=
  let before := old.elim [] fun text => reservedLines text [key]
  let after := new.elim [] fun text => reservedLines text [key]
  let resolvedSame := old.bind (field · key) = new.bind (field · key)
  if before = after ∧ resolvedSame then none
  else if before = after then some .reads
  else if before = [] then some .adds
  else if after = [] then some .removes
  else some .changes

def memberReservedRefusal (old new : Option Text) : Option MemberRefusal :=
  subDocReserved.findSome? fun key =>
    (reservedChange old new key).map fun change => .reservedLine key change

def memberRegionRefusal (old new : Option Text) : Option MemberRefusal :=
  let changed := changedRegions (old.getD []) (new.getD [])
  if changed = [] then none else some (.managedRegion changed)

def memberFleetRefusal (old new : Option Text) : Option MemberRefusal :=
  if (old.bind fleetMarker).isSome && (new.bind fleetMarker).isNone then some .fleetHold else none

/-! ### What the guards let pass -/

theorem sameRegions_iff {before after : List (Bytes × Bytes)} :
    sameRegions before after = true ↔ List.Forall₂ (fun b a => a.1 = b.1 ∧
      (a.2 = b.2 ∨ a.2 = encryptedPlaceholder)) before after := by
  induction before generalizing after with
  | nil => cases after <;> simp [sameRegions]
  | cons b before ih =>
    cases after with
    | nil => simp [sameRegions]
    | cons a after =>
      rw [List.forall₂_cons, ← ih]
      simp only [sameRegions, List.length_cons, Nat.add_right_cancel_iff, List.zip_cons_cons,
        List.all_cons, Bool.and_eq_true, decide_eq_true_eq, Bool.or_eq_true]
      constructor
      · rintro ⟨hlength, ⟨htag, hbody⟩, hrest⟩
        exact ⟨⟨htag.symm, hbody.imp_left Eq.symm⟩, hlength, hrest⟩
      · rintro ⟨⟨htag, hbody⟩, hlength, hrest⟩
        exact ⟨hlength, ⟨htag.symm, hbody.imp_left Eq.symm⟩, hrest⟩

theorem memberVaultRefusal_eq_none {rel : String} {old new : Option Text} :
    memberVaultRefusal rel old new = none ↔
      sameRegions (old.elim [] fun text => vaultRegions text rel)
        (new.elim [] fun text => vaultRegions text rel) = true := by
  unfold memberVaultRefusal
  dsimp only
  split_ifs with h <;> simp [h]

/-- **The reserved guard passes** what leaves the lines of every key, and what is read of them. -/
theorem memberReservedRefusal_eq_none {old new : Option Text} :
    memberReservedRefusal old new = none ↔ ∀ key ∈ subDocReserved,
      (old.elim [] fun text => reservedLines text [key]) =
          (new.elim [] fun text => reservedLines text [key]) ∧
        old.bind (field · key) = new.bind (field · key) := by
  rw [memberReservedRefusal, List.findSome?_eq_none_iff]
  refine forall₂_congr fun key _ => ?_
  rw [Option.map_eq_none_iff, reservedChange]
  split_ifs with hsame hbefore <;> tauto

theorem memberFleetRefusal_eq_none {old new : Option Text} :
    memberFleetRefusal old new = none ↔
      ((old.bind fleetMarker).isSome → (new.bind fleetMarker).isSome) := by
  unfold memberFleetRefusal
  cases old.bind fleetMarker <;> cases new.bind fleetMarker <;> simp

theorem eraseDups_ne_nil {α : Type} [BEq α] {l : List α} (h : l ≠ []) : l.eraseDups ≠ [] := by
  cases l with
  | nil => exact absurd rfl h
  | cons a l => simp [List.eraseDups_cons]

/-- **No managed region changes** exactly where the regions are the same. -/
theorem changedRegions_eq_nil {before after : Text} :
    changedRegions before after = [] ↔ regions before = regions after := by
  unfold changedRegions
  dsimp only
  split_ifs with hsame hchanged
  · exact iff_of_true rfl hsame
  · refine iff_of_false ?_ hsame
    intro hnil
    have hbefore : regions before = [] := by
      by_contra hne
      exact eraseDups_ne_nil (mt List.map_eq_nil_iff.mp hne) hnil
    rw [hbefore] at hsame hchanged
    -- a tag of the new text has no body in the old one
    cases hafter : regions after with
    | nil => exact hsame hafter.symm
    | cons r rest =>
      rw [hafter] at hchanged
      refine eraseDups_ne_nil (List.ne_nil_of_mem (a := r.1) ?_) hchanged
      rw [List.mem_filter]
      refine ⟨List.mem_map_of_mem (List.mem_append_right _ List.mem_cons_self), ?_⟩
      simp
  · exact iff_of_false hchanged hsame

theorem memberRegionRefusal_eq_none {old new : Option Text} :
    memberRegionRefusal old new = none ↔ regions (old.getD []) = regions (new.getD []) := by
  rw [← changedRegions_eq_nil]
  unfold memberRegionRefusal
  dsimp only
  split_ifs with h <;> simp [h]

/-! ### What stays of a document -/

/-- A document keeps what a member may not change. -/
structure DocKept (rel : String) (old new : Text) : Prop where
  managed : regions new = regions old
  sealed : sameRegions (vaultRegions old rel) (vaultRegions new rel) = true
  lines : ∀ key ∈ subDocReserved, reservedLines new [key] = reservedLines old [key]
  reads : ∀ key ∈ subDocReserved, field new key = field old key
  held : held old = true → held new = true

/-- A document has something that a member may not change. -/
def Carries (rel : String) (text : Text) : Prop :=
  regions text ≠ [] ∨ vaultRegions text rel ≠ [] ∨ reservedField text subDocReserved ≠ none ∨
    held text = true

theorem DocKept.refl (rel : String) (text : Text) : DocKept rel text text where
  managed := rfl
  sealed := sameRegions_iff.mpr (List.forall₂_same.mpr fun _ _ => ⟨rfl, Or.inl rfl⟩)
  lines _ _ := rfl
  reads _ _ := rfl
  held h := h

theorem sameRegions_trans {a b c : List (Bytes × Bytes)} (hab : sameRegions a b = true)
    (hbc : sameRegions b c = true) : sameRegions a c = true := by
  rw [sameRegions_iff] at hab hbc ⊢
  induction hab generalizing c with
  | nil => exact hbc
  | cons hhead htail ih =>
    cases hbc with
    | cons hhead' htail' =>
      refine .cons ⟨hhead'.1.trans hhead.1, ?_⟩ (ih htail')
      rcases hhead'.2 with heq | hplaceholder
      · exact heq ▸ hhead.2
      · exact Or.inr hplaceholder

theorem DocKept.trans {rel : String} {old mid new : Text} (h : DocKept rel old mid)
    (h' : DocKept rel mid new) : DocKept rel old new where
  managed := h'.managed.trans h.managed
  sealed := sameRegions_trans h.sealed h'.sealed
  lines key hkey := (h'.lines key hkey).trans (h.lines key hkey)
  reads key hkey := (h'.reads key hkey).trans (h.reads key hkey)
  held hheld := h'.held (h.held hheld)

theorem DocKept.carries {rel : String} {old new : Text} (h : DocKept rel old new)
    (hcarries : Carries rel old) : Carries rel new := by
  rcases hcarries with hmanaged | hsealed | hreserved | hheld
  · exact Or.inl (h.managed ▸ hmanaged)
  · refine Or.inr (Or.inl fun hnil => hsealed ?_)
    have hsame := sameRegions_iff.mp h.sealed
    rw [hnil] at hsame
    exact List.forall₂_nil_right_iff.mp hsame
  · refine Or.inr (Or.inr (Or.inl fun hnone => hreserved ?_))
    rw [reservedField_eq_none] at hnone ⊢
    intro key hkey
    rw [← h.lines key hkey]
    exact hnone key hkey
  · exact Or.inr (Or.inr (Or.inr (h.held hheld)))

/-- **What the guards let pass keeps the document.** -/
theorem docKept_of_passes {rel : String} {old new : Text}
    (hregion : memberRegionRefusal (some old) (some new) = none)
    (hvault : memberVaultRefusal rel (some old) (some new) = none)
    (hreserved : memberReservedRefusal (some old) (some new) = none)
    (hfleet : memberFleetRefusal (some old) (some new) = none) : DocKept rel old new where
  managed := (memberRegionRefusal_eq_none.mp hregion).symm
  sealed := memberVaultRefusal_eq_none.mp hvault
  lines key hkey := (memberReservedRefusal_eq_none.mp hreserved key hkey).1.symm
  reads key hkey := (memberReservedRefusal_eq_none.mp hreserved key hkey).2.symm
  held hheld := memberFleetRefusal_eq_none.mp hfleet hheld

end Softfig.Doc
