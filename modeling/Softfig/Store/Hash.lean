import Softfig.Lib.Jcs

/-!
Content addresses and the byte strings they are taken of.

A hash is the byte string the digest function returns; the digest function
itself is a parameter of everything above. Hex and UTF-8 lose nothing, so two
addresses written into a canonical text are told apart by the text.
-/

namespace Softfig.Store

open Softfig.Lib

abbrev Bytes := List UInt8

/-- UTF-8 bytes of a text. -/
def utf8 (s : String) : Bytes := s.toUTF8.data.toList

theorem utf8_injective {s t : String} (h : utf8 s = utf8 t) : s = t := by
  refine String.toByteArray_inj.mp (ByteArray.ext ?_)
  exact Array.toList_inj.mp h

/-- The two digits of one byte, high half first. -/
def hexByte (b : UInt8) : List Char :=
  [Jcs.hexDigit (b.toNat / 16), Jcs.hexDigit (b.toNat % 16)]

def hexChars : Bytes → List Char
  | [] => []
  | b :: bs => hexByte b ++ hexChars bs

def hexEncode (bs : Bytes) : String := String.ofList (hexChars bs)

theorem hexDigit_injective : ∀ m n : Fin 16, Jcs.hexDigit m = Jcs.hexDigit n → m = n := by
  decide

theorem hexByte_injective {a b : UInt8} (h : hexByte a = hexByte b) : a = b := by
  simp only [hexByte, List.cons.injEq, and_true] at h
  have ha := a.toNat_lt
  have hb := b.toNat_lt
  have hhigh := hexDigit_injective ⟨a.toNat / 16, by omega⟩ ⟨b.toNat / 16, by omega⟩ h.1
  have hlow := hexDigit_injective ⟨a.toNat % 16, by omega⟩ ⟨b.toNat % 16, by omega⟩ h.2
  simp only [Fin.mk.injEq] at hhigh hlow
  refine UInt8.toNat_inj.mp ?_
  omega

theorem hexChars_injective {as bs : Bytes} (h : hexChars as = hexChars bs) : as = bs := by
  induction as generalizing bs with
  | nil =>
    cases bs with
    | nil => rfl
    | cons b bs => simp [hexChars, hexByte] at h
  | cons a as ih =>
    cases bs with
    | nil => simp [hexChars, hexByte] at h
    | cons b bs =>
      obtain ⟨hbyte, hrest⟩ := List.append_inj h rfl
      rw [hexByte_injective hbyte, ih hrest]

theorem hexEncode_injective {as bs : Bytes} (h : hexEncode as = hexEncode bs) : as = bs :=
  hexChars_injective (String.ofList_injective h)

/-- The address of a stored value: the digest of its bytes. -/
structure Hash where
  bytes : Bytes
  deriving DecidableEq

def Hash.toHex (h : Hash) : String := hexEncode h.bytes

theorem Hash.toHex_injective {g h : Hash} (heq : g.toHex = h.toHex) : g = h := by
  cases g
  cases h
  exact congrArg _ (hexEncode_injective heq)

end Softfig.Store
