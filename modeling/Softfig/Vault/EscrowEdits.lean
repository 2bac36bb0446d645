import Mathlib.Data.List.InsertIdx
import Mathlib.Data.List.Perm.Basic
import Softfig.Vault.Escrow

/-!
What the integrity check notices of one edit of a bundle that had nothing wrong.

The digests cover the bytes of a member and nothing covers its name, so a renamed member is noticed
by where its name is missing or not expected, and only there.

- `not_intact_data`, `not_intact_size`, `not_intact_digest`: a member that holds something else;
- `intact_rename_iff`: exactly which renamed members go unnoticed;
- `not_intact_drop`, `not_intact_insert`: a dropped member and a repeated one.
-/

namespace Softfig.Vault.Escrow

open Softfig.Lib
open Softfig.Store (Hash)
open Softfig.Doc (Text)

/-- The bundle with its `i`-th member put in another's place. -/
def EscrowBundle.replace (b : EscrowBundle) (i : Nat) (m : Member) : EscrowBundle :=
  { b with members := b.members.set i m }

/-- The bundle without its `i`-th member; the count is kept. -/
def EscrowBundle.drop (b : EscrowBundle) (i : Nat) : EscrowBundle :=
  { b with members := b.members.eraseIdx i }

/-- The bundle with one more row at `i`. -/
def EscrowBundle.insert (b : EscrowBundle) (i : Nat) (m : Member) : EscrowBundle :=
  { b with members := b.members.insertIdx i m }

variable {c : Crates} {f : Formats} {b : EscrowBundle} {i : Nat} {m m' : Member}

theorem names_replace : (b.replace i m).names = b.names.set i m.name := List.map_set

theorem names_drop : (b.drop i).names = b.names.eraseIdx i := (List.eraseIdx_map ..).symm

/-! ### Members that hold something else -/

theorem mem_replace (hm : b.members[i]? = some m) : m' ∈ (b.replace i m').members := by
  obtain ⟨hi, -⟩ := List.getElem?_eq_some_iff.mp hm
  exact List.mem_set hi m'

/-- What an intact bundle has in a member's place is sound. -/
theorem Intact.sound_replace (h : Intact c f (b.replace i m')) (hm : b.members[i]? = some m) :
    m'.Sound c :=
  h.sound m' (mem_replace hm)

theorem Intact.sound_get (h : Intact c f b) (hm : b.members[i]? = some m) : m.Sound c :=
  h.sound m (List.mem_of_getElem? hm)

/-- **Other data in a member's place is noticed**, unless it stands for other bytes of the same
digest. -/
theorem not_intact_data (h : Intact c f b) (hm : b.members[i]? = some m) {data : Bytes}
    (hdata : data ≠ m.data)
    (hdigest : ∀ bytes bytes', Base64.decode m.data = some bytes →
      Base64.decode data = some bytes' → c.blake3 bytes' = c.blake3 bytes → bytes' = bytes) :
    ¬Intact c f (b.replace i { m with data := data }) := by
  intro hedited
  obtain ⟨bytes, hbytes, -, hhash⟩ := (h.sound_get hm).holds
  obtain ⟨bytes', hbytes', -, hhash'⟩ := (hedited.sound_replace hm).holds
  have hsame : bytes' = bytes :=
    hdigest bytes bytes' hbytes hbytes' (Hash.toHex_injective (hhash'.trans hhash.symm))
  apply hdata
  calc data = Base64.encode bytes' := (Base64.encode_decode hbytes').symm
    _ = Base64.encode bytes := by rw [hsame]
    _ = m.data := Base64.encode_decode hbytes

/-- **Another declared size is noticed.** -/
theorem not_intact_size (h : Intact c f b) (hm : b.members[i]? = some m) {size : Nat}
    (hsize : size ≠ m.size) : ¬Intact c f (b.replace i { m with size := size }) := by
  intro hedited
  obtain ⟨bytes, hbytes, hlength, -⟩ := (h.sound_get hm).holds
  obtain ⟨bytes', hbytes', hlength', -⟩ := (hedited.sound_replace hm).holds
  obtain rfl : bytes = bytes' := Option.some.inj (hbytes.symm.trans hbytes')
  exact hsize (hlength'.symm.trans hlength)

/-- **Another declared digest is noticed.** -/
theorem not_intact_digest (h : Intact c f b) (hm : b.members[i]? = some m) {blake3 : String}
    (hblake3 : blake3 ≠ m.blake3) : ¬Intact c f (b.replace i { m with blake3 := blake3 }) := by
  intro hedited
  obtain ⟨bytes, hbytes, -, hhash⟩ := (h.sound_get hm).holds
  obtain ⟨bytes', hbytes', -, hhash'⟩ := (hedited.sound_replace hm).holds
  obtain rfl : bytes = bytes' := Option.some.inj (hbytes.symm.trans hbytes')
  exact hblake3 (hhash'.symm.trans hhash)

/-! ### Members under another name -/

theorem nodup_set_iff {α : Type} {l : List α} (h : l.Nodup) (hi : i < l.length) {a : α} :
    (l.set i a).Nodup ↔ a ∉ l.eraseIdx i := by
  rw [(List.set_perm_cons_eraseIdx hi a).nodup_iff, List.nodup_cons]
  exact and_iff_left (h.sublist (List.eraseIdx_sublist l i))

/-- **A renamed member goes unnoticed exactly when** its name is one an export writes, no other
member has it, and nothing is missing without the old one. -/
theorem intact_rename_iff (h : Intact c f b) (hm : b.members[i]? = some m) {name : Text} :
    Intact c f (b.replace i { m with name := name }) ↔
      memberNameIsKnown name = true ∧ name ∉ (b.drop i).names ∧
        Complete f (b.replace i { m with name := name }) := by
  obtain ⟨hi, -⟩ := List.getElem?_eq_some_iff.mp hm
  have hi' : i < b.names.length := by
    rw [EscrowBundle.names, List.length_map]
    exact hi
  have hdistinct : (b.replace i { m with name := name }).names.Nodup ↔ name ∉ (b.drop i).names := by
    rw [names_replace, names_drop]
    exact nodup_set_iff h.distinct hi'
  constructor
  · intro hedited
    exact ⟨(hedited.sound_replace hm).known, hdistinct.mp hedited.distinct, hedited.complete⟩
  · rintro ⟨hknown, hfresh, hcomplete⟩
    refine ⟨hdistinct.mpr hfresh, ?_, ?_, hcomplete⟩
    · intro m' hm'
      rcases List.mem_or_eq_of_mem_set hm' with hold | rfl
      · exact h.sound m' hold
      · exact ⟨hknown, (h.sound_get hm).holds⟩
    · show b.memberCount = (b.members.set i _).length
      rw [List.length_set]
      exact h.count

/-! ### Fewer members and more -/

/-- **A dropped member is noticed**: the count is another. -/
theorem not_intact_drop (h : Intact c f b) (hm : b.members[i]? = some m) :
    ¬Intact c f (b.drop i) := by
  intro hedited
  obtain ⟨hi, -⟩ := List.getElem?_eq_some_iff.mp hm
  have hcount : b.memberCount = (b.members.eraseIdx i).length := hedited.count
  rw [List.length_eraseIdx_of_lt hi, h.count] at hcount
  omega

/-- **A repeated member is noticed**, in any bundle. -/
theorem not_intact_insert (hm : m ∈ b.members) (hi : i ≤ b.members.length) :
    ¬Intact c f (b.insert i m) := by
  intro hedited
  have hnames : (b.insert i m).names.Perm (m.name :: b.names) :=
    (List.perm_insertIdx m b.members hi).map Member.name
  have hnodup := hnames.nodup_iff.mp hedited.distinct
  exact (List.nodup_cons.mp hnodup).1 (List.mem_map_of_mem hm)

end Softfig.Vault.Escrow
