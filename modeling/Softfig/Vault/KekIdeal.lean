import Softfig.Vault.KekFormats

/-!
Passphrase wrappings with ideal primitives.

No passphrase, salt and costs but its own derive the key of a wrapping, and under a
derived key the cipher opens what some wrapping sealed, and nothing else.

- `unwrap_made_iff`: what opens is a wrapping that was made, with its header in it or
  after its tag;
- `changed_refused`: a wrapping that was changed does not open;
- `kek_wrappings_ideal`: the formats, for any bytes and any number of wrappings.
-/

namespace Softfig.Vault

open Softfig.Lib

inductive WrappingFormat where
  | v1
  | v2
  deriving DecidableEq

/-- A wrapping that was made, and all that went into it. -/
structure MadeWrapping where
  format : WrappingFormat
  passphrase : Bytes
  kek : Key
  params : Argon2Params
  /-- The purpose tag it was made with. -/
  tag : Bytes
  salt : Salt
  nonce : Nonce
  deriving DecidableEq

/-- The writer of before the costs were embedded. -/
def wrapKekUnderPassphraseV1 (c : Crates) (passphrase : Bytes) (kek : Key) (params : Argon2Params)
    (ad : Bytes) (salt : Salt) (nonce : Nonce) : Except VaultError Bytes := do
  let derived ← deriveFromPassphrase c passphrase salt params
  let ct := c.encrypt derived nonce ad kek.val
  .ok (salt.val ++ nonce.val ++ ct)

namespace MadeWrapping

def header (w : MadeWrapping) : Bytes :=
  match w.format with
  | .v1 => []
  | .v2 => encodeV2Header w.params

/-- What the seal of a wrapping is bound to. -/
def ad (w : MadeWrapping) : Bytes := w.tag ++ w.header

def write (c : Crates) (w : MadeWrapping) : Except VaultError Bytes :=
  match w.format with
  | .v1 => wrapKekUnderPassphraseV1 c w.passphrase w.kek w.params w.tag w.salt w.nonce
  | .v2 => wrapKekUnderPassphrase c w.passphrase w.kek w.params w.tag w.salt w.nonce

/-- What a wrapping is opened with, under the key derived for it. -/
def parts (c : Crates) (w : MadeWrapping) (derived : Key) : WrappingParts :=
  ⟨w.params, w.ad, w.salt, w.nonce, c.encrypt derived w.nonce w.ad w.kek.val⟩

theorem write_ok_iff {c : Crates} {w : MadeWrapping} {wrapped : Bytes} :
    w.write c = .ok wrapped ↔
      ∃ derived, deriveFromPassphrase c w.passphrase w.salt w.params = .ok derived ∧
        wrapped = w.header ++ (w.parts c derived).body := by
  unfold write wrapKekUnderPassphraseV1 wrapKekUnderPassphrase
  cases hderive : deriveFromPassphrase c w.passphrase w.salt w.params with
  | error e => cases w.format <;> simp [bind, Except.bind]
  | ok derived =>
    cases hformat : w.format <;>
      simp [bind, Except.bind, header, ad, parts, WrappingParts.body, v2Aad, hformat, eq_comm]

end MadeWrapping

/-- **Ideal primitives.** No salt and nonce are drawn twice, each wrapping's key has one
derivation, and derived keys open what the wrappings sealed and nothing else. -/
structure Crates.Ideal (c : Crates) (made : List MadeWrapping) : Prop where
  fresh : ∀ w ∈ made, ∀ w' ∈ made, w.salt = w'.salt → w.nonce = w'.nonce → w = w'
  derives : ∀ w ∈ made, ∀ passphrase salt params key,
    c.argon2id w.passphrase w.salt w.params = .ok key →
      c.argon2id passphrase salt params = .ok key →
        passphrase = w.passphrase ∧ salt = w.salt ∧ params = w.params
  decrypt_encrypt : ∀ w ∈ made, ∀ key, c.argon2id w.passphrase w.salt w.params = .ok key →
    c.decrypt key w.nonce w.ad (c.encrypt key w.nonce w.ad w.kek.val) = some w.kek.val
  sealed : ∀ passphrase salt params key, c.argon2id passphrase salt params = .ok key →
    ∀ nonce ad ct plain, c.decrypt key nonce ad ct = some plain →
      ∃ w ∈ made, c.argon2id w.passphrase w.salt w.params = .ok key ∧ nonce = w.nonce ∧
        ad = w.ad ∧ ct = c.encrypt key w.nonce w.ad w.kek.val ∧ plain = w.kek.val
  encrypt_length : ∀ key nonce ad plain,
    (c.encrypt key nonce ad plain).length = plain.length + aeadTagLen

variable {c : Crates} {made : List MadeWrapping}

theorem deriveFromPassphrase_ok_iff {passphrase : Bytes} {salt : Salt} {params : Argon2Params}
    {key : Key} :
    deriveFromPassphrase c passphrase salt params = .ok key ↔
      validatedCosts c params = .ok () ∧ c.argon2id passphrase salt params = .ok key := by
  unfold deriveFromPassphrase
  cases validatedCosts c params with
  | error e => simp [bind, Except.bind]
  | ok u =>
    simp only [bind, Except.bind, true_and]
    cases c.argon2id passphrase salt params <;> simp

theorem length_body (hc : c.Ideal made) (w : MadeWrapping) (derived : Key) :
    (w.parts c derived).body.length = v2MinBodyLen := by
  simp only [WrappingParts.body, MadeWrapping.parts, List.length_append, FixedBytes.length_val,
    hc.encrypt_length, v2MinBodyLen, aeadTagLen]

theorem eq_of_body (hc : c.Ideal made) {w w' : MadeWrapping} (hmem : w ∈ made) (hmem' : w' ∈ made)
    {derived derived' : Key} (h : (w.parts c derived).body = (w'.parts c derived').body) :
    w = w' := by
  obtain ⟨hsalt, hrest⟩ := List.append_inj h (by simp [MadeWrapping.parts])
  obtain ⟨hnonce, -⟩ := List.append_inj hrest (by simp [MadeWrapping.parts])
  exact hc.fresh w hmem w' hmem' (Subtype.ext hsalt) (Subtype.ext hnonce)

/-- The formats are told apart: what is written in one is never read in the other. -/
theorem isV2_write (hc : c.Ideal made) {w : MadeWrapping} {wrapped : Bytes}
    (h : w.write c = .ok wrapped) : isV2 wrapped = decide (w.format = .v2) := by
  obtain ⟨derived, -, rfl⟩ := MadeWrapping.write_ok_iff.mp h
  have hbody := length_body hc w derived
  cases hformat : w.format with
  | v1 =>
    have hshort : ¬v2HeaderLen + v2MinBodyLen ≤ (w.header ++ (w.parts c derived).body).length := by
      simp only [MadeWrapping.header, hformat, List.nil_append, hbody, v2HeaderLen]
      omega
    simp only [isV2, hshort, decide_false, Bool.false_and]
    rfl
  | v2 =>
    have hmagic : (encodeV2Header w.params ++ (w.parts c derived).body).take 4 = kekV2Magic := by
      simp [encodeV2Header, kekV2Magic_eq]
    simp [isV2, MadeWrapping.header, hformat, hmagic, hbody]

/-- The bytes and the tag a wrapping opens with: its own, or with the header of its costs taken
from one to the other. -/
def MadeWrapping.Reads (w : MadeWrapping) (wrapped presented tag : Bytes)
    (fallback : Argon2Params) : Prop :=
  (presented = wrapped ∧ tag = w.tag ∧ (w.format = .v1 → fallback = w.params)) ∨
    (w.format = .v1 ∧ presented = encodeV2Header w.params ++ wrapped ∧
      w.tag = tag ++ encodeV2Header w.params) ∨
    (w.format = .v2 ∧ wrapped = encodeV2Header w.params ++ presented ∧
      tag = w.tag ++ encodeV2Header w.params ∧ fallback = w.params)

/-- **What opens is a wrapping that was made**, under its own passphrase and to its own K. -/
theorem unwrap_made (hc : c.Ideal made) {passphrase presented tag : Bytes}
    {fallback : Argon2Params} {kek : Key}
    (h : unwrapKekUnderPassphrase c passphrase presented fallback tag = .ok kek) :
    ∃ w ∈ made, w.passphrase = passphrase ∧ w.kek = kek ∧
      ∃ wrapped, w.write c = .ok wrapped ∧ w.Reads wrapped presented tag fallback := by
  rw [unwrap_eq] at h
  obtain ⟨parts, hparts, h⟩ := bind_ok_iff.mp h
  obtain ⟨derived, hderive, hdecrypt⟩ := openParts_ok_iff.mp h
  obtain ⟨hvalid, hargon⟩ := deriveFromPassphrase_ok_iff.mp hderive
  obtain ⟨w, hmem, hkey, hnonce, had, hct, hplain⟩ :=
    hc.sealed _ _ _ _ hargon _ _ _ _ hdecrypt
  obtain ⟨hpass, hsalt, hparams⟩ := hc.derives w hmem _ _ _ _ hkey hargon
  have hsame : parts = w.parts c derived := by
    obtain ⟨params, ad, salt, nonce, ct⟩ := parts
    simp only at hsalt hparams hnonce had hct
    simp only [MadeWrapping.parts, hsalt, hparams, hnonce, had, hct]
  have hwrite : w.write c = .ok (w.header ++ parts.body) := by
    refine MadeWrapping.write_ok_iff.mpr ⟨derived, ?_, by rw [hsame]⟩
    rw [← hpass, ← hsalt, ← hparams]
    exact hderive
  refine ⟨w, hmem, hpass.symm, (Subtype.ext hplain).symm, _, hwrite, ?_⟩
  rcases wrappingParts_ok_iff.mp hparts with ⟨-, hbytes, htag⟩ | ⟨-, hbytes, hfallback, htag⟩
  · rw [hparams] at hbytes htag
    rw [had, MadeWrapping.ad, v2Aad] at htag
    cases hformat : w.format with
    | v1 =>
      simp only [MadeWrapping.header, hformat, List.append_nil] at htag
      refine .inr (.inl ⟨hformat, ?_, htag⟩)
      simpa only [MadeWrapping.header, hformat, List.nil_append] using hbytes
    | v2 =>
      simp only [MadeWrapping.header, hformat] at htag
      refine .inl ⟨?_, (List.append_cancel_right htag).symm, fun hv1 => ?_⟩
      · simpa only [MadeWrapping.header, hformat] using hbytes
      · rw [hformat] at hv1
        cases hv1
  · rw [had, MadeWrapping.ad] at htag
    cases hformat : w.format with
    | v1 =>
      simp only [MadeWrapping.header, hformat, List.append_nil] at htag
      refine .inl ⟨?_, htag.symm, fun _ => hfallback.symm.trans hparams⟩
      simpa only [MadeWrapping.header, hformat, List.nil_append] using hbytes
    | v2 =>
      simp only [MadeWrapping.header, hformat] at htag
      refine .inr (.inr ⟨hformat, ?_, htag.symm, hfallback.symm.trans hparams⟩)
      rw [hbytes, MadeWrapping.header, hformat]

/-- A wrapping that was made opens under its own passphrase and tag; an old one needs its costs. -/
theorem unwrap_written (hc : c.Ideal made) {w : MadeWrapping} (hmem : w ∈ made) {wrapped : Bytes}
    (h : w.write c = .ok wrapped) {fallback : Argon2Params}
    (hfallback : w.format = .v1 → fallback = w.params) :
    unwrapKekUnderPassphrase c w.passphrase wrapped fallback w.tag = .ok w.kek := by
  have hv2 := isV2_write hc h
  obtain ⟨derived, hderive, rfl⟩ := MadeWrapping.write_ok_iff.mp h
  have hargon := (deriveFromPassphrase_ok_iff.mp hderive).2
  have hparts : wrappingParts (w.header ++ (w.parts c derived).body) fallback w.tag =
      .ok (w.parts c derived) := by
    refine wrappingParts_ok_iff.mpr ?_
    cases hformat : w.format with
    | v1 =>
      refine .inr ⟨by rw [hv2, hformat]; rfl, ?_, (hfallback hformat).symm, ?_⟩
      · rw [MadeWrapping.header, hformat, List.nil_append]
      · simp [MadeWrapping.parts, MadeWrapping.ad, MadeWrapping.header, hformat]
    | v2 =>
      refine .inl ⟨by rw [hv2, hformat]; rfl, ?_, ?_⟩
      · simp only [MadeWrapping.header, hformat, MadeWrapping.parts]
      · simp only [MadeWrapping.parts, MadeWrapping.ad, MadeWrapping.header, hformat, v2Aad]
  rw [unwrap_eq, hparts]
  exact openParts_ok_iff.mpr ⟨derived, hderive, hc.decrypt_encrypt w hmem derived hargon⟩

/-- **An old wrapping opens exactly under its costs.** -/
theorem unwrap_v1_iff (hc : c.Ideal made) {w : MadeWrapping} (hmem : w ∈ made) {wrapped : Bytes}
    (h : w.write c = .ok wrapped) (hformat : w.format = .v1) {fallback : Argon2Params} {kek : Key} :
    unwrapKekUnderPassphrase c w.passphrase wrapped fallback w.tag = .ok kek ↔
      fallback = w.params ∧ kek = w.kek := by
  constructor
  · intro hopen
    obtain ⟨other, hother, -, rfl, bytes, hwrite, hreads⟩ := unwrap_made hc hopen
    have hv1 := isV2_write hc h
    obtain ⟨derived, -, hbytes⟩ := MadeWrapping.write_ok_iff.mp h
    obtain ⟨derived', -, hbytes'⟩ := MadeWrapping.write_ok_iff.mp hwrite
    rw [MadeWrapping.header, hformat, List.nil_append] at hbytes
    rcases hreads with ⟨rfl, -, hparams⟩ | ⟨hother1, hheader, -⟩ | ⟨hother2, hheader, -⟩
    · have hother1 : other.format = .v1 := by
        have hv2 := isV2_write hc hwrite
        rw [hv1, hformat] at hv2
        cases hof : other.format with
        | v1 => rfl
        | v2 =>
          rw [hof] at hv2
          cases hv2
      rw [hbytes, MadeWrapping.header, hother1, List.nil_append] at hbytes'
      have hsame := eq_of_body hc hmem hother hbytes'
      rw [hsame]
      exact ⟨hparams hother1, rfl⟩
    · rw [hbytes', MadeWrapping.header, hother1, List.nil_append, hbytes] at hheader
      have hlen := congrArg List.length hheader
      rw [List.length_append, length_body hc, length_body hc, length_encodeV2Header,
        v2HeaderLen] at hlen
      omega
    · rw [hbytes', MadeWrapping.header, hother2, hbytes] at hheader
      have hsame := eq_of_body hc hother hmem (List.append_cancel_left hheader)
      rw [hsame, hformat] at hother2
      cases hother2
  · rintro ⟨rfl, rfl⟩
    exact unwrap_written hc hmem h fun _ => rfl

/-- The bytes carry the salt and the nonce of a wrapping, where one of the formats has them. -/
def MadeWrapping.CarriedBy (w : MadeWrapping) (presented : Bytes) : Prop :=
  ∃ front ct, (front = [] ∨ front.length = v2HeaderLen) ∧
    presented = front ++ (w.salt.val ++ (w.nonce.val ++ ct))

theorem MadeWrapping.Reads.carried {w : MadeWrapping} {wrapped presented tag : Bytes}
    {fallback : Argon2Params} (h : w.write c = .ok wrapped)
    (hreads : w.Reads wrapped presented tag fallback) : w.CarriedBy presented := by
  obtain ⟨derived, -, rfl⟩ := write_ok_iff.mp h
  have hlen := length_encodeV2Header w.params
  rcases hreads with ⟨rfl, -⟩ | ⟨hformat, rfl, -⟩ | ⟨hformat, hbytes, -⟩
  · refine ⟨w.header, _, ?_, rfl⟩
    cases hformat : w.format with
    | v1 => exact .inl (by rw [header, hformat])
    | v2 => exact .inr (by rw [header, hformat, hlen])
  · refine ⟨encodeV2Header w.params, (w.parts c derived).ct, .inr hlen, ?_⟩
    rw [header, hformat, List.nil_append]
    rfl
  · rw [header, hformat] at hbytes
    exact ⟨[], _, .inl rfl, (List.append_cancel_left hbytes).symm⟩

/-- **A changed wrapping is refused**, unless it carries the salt and the nonce of another one:
whichever of its bytes were changed, and under another tag or passphrase. -/
theorem changed_refused (hc : c.Ideal made) {w : MadeWrapping} {wrapped : Bytes}
    (h : w.write c = .ok wrapped) {passphrase presented tag : Bytes} {fallback : Argon2Params}
    (hlen : presented.length = wrapped.length)
    (hown : ∀ other ∈ made, other.CarriedBy presented → other = w)
    (hchanged : presented ≠ wrapped ∨ tag ≠ w.tag ∨ passphrase ≠ w.passphrase) :
    ∃ e, unwrapKekUnderPassphrase c passphrase presented fallback tag = .error e := by
  cases hopen : unwrapKekUnderPassphrase c passphrase presented fallback tag with
  | error e => exact ⟨e, rfl⟩
  | ok kek =>
    obtain ⟨other, hmem, hpass, -, bytes, hwrite, hreads⟩ := unwrap_made hc hopen
    obtain rfl := hown other hmem (hreads.carried hwrite)
    rw [h] at hwrite
    cases hwrite
    rcases hreads with ⟨hbytes, htag, -⟩ | ⟨-, rfl, -⟩ | ⟨-, rfl, -⟩
    · rcases hchanged with hne | hne | hne
      · exact absurd hbytes hne
      · exact absurd htag hne
      · exact absurd hpass.symm hne
    · rw [List.length_append, length_encodeV2Header, v2HeaderLen] at hlen
      omega
    · rw [List.length_append, length_encodeV2Header, v2HeaderLen] at hlen
      omega

/-- **Passphrase wrappings.** Any bytes are read without an index out of bounds and without a
derivation past the cap. With ideal primitives a new wrapping opens to its K under every fallback
and an old one exactly under its costs, and is never taken for a new one; what was changed in a
wrapping of either format, or is presented under another tag or passphrase, is refused; and
nothing opens that no wrapping was made as. -/
theorem kek_wrappings_ideal :
    (∀ (c : Crates) passphrase wrapped fallback tag,
      unwrapIndexed c passphrase wrapped fallback tag =
        some (unwrapKekUnderPassphrase c passphrase wrapped fallback tag)) ∧
    ∀ (c : Crates) (made : List MadeWrapping), c.Ideal made →
      (∀ w ∈ made, ∀ wrapped, w.write c = .ok wrapped →
        (w.format = .v2 → ∀ fallback,
          unwrapKekUnderPassphrase c w.passphrase wrapped fallback w.tag = .ok w.kek) ∧
        (w.format = .v1 → isV2 wrapped = false ∧ ∀ fallback kek,
          unwrapKekUnderPassphrase c w.passphrase wrapped fallback w.tag = .ok kek ↔
            fallback = w.params ∧ kek = w.kek) ∧
        ∀ passphrase presented fallback tag, presented.length = wrapped.length →
          (∀ other ∈ made, other.CarriedBy presented → other = w) →
          (presented ≠ wrapped ∨ tag ≠ w.tag ∨ passphrase ≠ w.passphrase) →
            ∃ e, unwrapKekUnderPassphrase c passphrase presented fallback tag = .error e) ∧
      ∀ passphrase presented fallback tag kek,
        unwrapKekUnderPassphrase c passphrase presented fallback tag = .ok kek →
          ∃ w ∈ made, w.passphrase = passphrase ∧ w.kek = kek ∧
            ∃ wrapped, w.write c = .ok wrapped ∧ w.Reads wrapped presented tag fallback := by
  refine ⟨fun c passphrase wrapped fallback tag => unwrapIndexed_eq passphrase wrapped fallback tag,
    fun c made hc => ⟨fun w hmem wrapped h => ⟨fun hformat fallback => ?_, fun hformat => ?_, ?_⟩,
      fun _ _ _ _ _ => unwrap_made hc⟩⟩
  · exact unwrap_written hc hmem h (by simp [hformat])
  · exact ⟨by rw [isV2_write hc h, hformat]; rfl, fun _ _ => unwrap_v1_iff hc hmem h hformat⟩
  · intro passphrase presented fallback tag hlen hown hchanged
    exact changed_refused hc h hlen hown hchanged

/-! ### An instance -/

/-- What a wrapping's key is derived from. -/
def MadeWrapping.origin (w : MadeWrapping) : Bytes × Salt × Argon2Params :=
  (w.passphrase, w.salt, w.params)

/-- The place of a derivation in a ledger; every other one comes after the last. -/
def ledgerKey (made : List MadeWrapping) (passphrase : Bytes) (salt : Salt)
    (params : Argon2Params) : Key :=
  ⟨List.replicate 32 (.ofNat ((made.map MadeWrapping.origin).idxOf (passphrase, salt, params))),
    List.length_replicate⟩

/-- The entry of a ledger that a ciphertext is. -/
def ledgerEntry (made : List MadeWrapping) (key : Key) (nonce : Nonce) (ad ct : Bytes) :
    Option MadeWrapping :=
  made.find? fun w => key = ledgerKey made w.passphrase w.salt w.params ∧ nonce = w.nonce ∧
    ad = w.ad ∧ ct = checksumCrates.encrypt key w.nonce w.ad w.kek.val

/-- A cipher that opens what is in a ledger. -/
def ledgerCrates (made : List MadeWrapping) : Crates :=
  { checksumCrates with
    argon2id := fun passphrase salt params => .ok (ledgerKey made passphrase salt params)
    decrypt := fun key nonce ad ct => (ledgerEntry made key nonce ad ct).map fun w => w.kek.val }

theorem ledgerEntry_some {key : Key} {nonce : Nonce} {ad ct : Bytes} {w : MadeWrapping}
    (h : ledgerEntry made key nonce ad ct = some w) :
    w ∈ made ∧ key = ledgerKey made w.passphrase w.salt w.params ∧ nonce = w.nonce ∧ ad = w.ad ∧
      ct = checksumCrates.encrypt key w.nonce w.ad w.kek.val := by
  have hentry := List.find?_some h
  exact ⟨List.mem_of_find?_eq_some h, of_decide_eq_true hentry⟩

theorem ledgerKey_eq {w : MadeWrapping} (hshort : made.length < 256) (hmem : w ∈ made)
    {passphrase : Bytes} {salt : Salt} {params : Argon2Params}
    (h : ledgerKey made w.passphrase w.salt w.params = ledgerKey made passphrase salt params) :
    passphrase = w.passphrase ∧ salt = w.salt ∧ params = w.params := by
  have hle : ∀ x, (made.map MadeWrapping.origin).idxOf x < 256 := fun x =>
    List.idxOf_le_length.trans_lt (by rwa [List.length_map])
  have hslot := (List.replicate_inj.mp (congrArg Subtype.val h)).2.resolve_left (by omega)
  have hplace := congrArg UInt8.toNat hslot
  rw [UInt8.toNat_ofNat', UInt8.toNat_ofNat', Nat.mod_eq_of_lt (hle _),
    Nat.mod_eq_of_lt (hle _)] at hplace
  have horigin : w.origin = (passphrase, salt, params) :=
    (List.idxOf_inj (List.mem_map_of_mem hmem)).mp hplace
  cases horigin
  exact ⟨rfl, rfl, rfl⟩

theorem ledgerCrates_ideal (hshort : made.length < 256)
    (hfresh : ∀ w ∈ made, ∀ w' ∈ made, w.salt = w'.salt → w.nonce = w'.nonce → w = w') :
    (ledgerCrates made).Ideal made where
  fresh := hfresh
  derives w hmem passphrase salt params key hkey hkey' := by
    cases hkey
    exact ledgerKey_eq hshort hmem (Except.ok.inj hkey').symm
  decrypt_encrypt w hmem key hkey := by
    cases hkey
    cases hentry : ledgerEntry made (ledgerKey made w.passphrase w.salt w.params) w.nonce w.ad
        (checksumCrates.encrypt (ledgerKey made w.passphrase w.salt w.params) w.nonce w.ad
          w.kek.val) with
    | none =>
      have hnone := List.find?_eq_none.mp hentry w hmem
      simp at hnone
    | some w' =>
      obtain ⟨hmem', hkey, hnonce, -⟩ := ledgerEntry_some hentry
      obtain ⟨-, hsalt, -⟩ := ledgerKey_eq hshort hmem hkey
      obtain rfl := hfresh w hmem w' hmem' hsalt.symm hnonce
      exact congrArg (Option.map fun m : MadeWrapping => m.kek.val) hentry
  sealed passphrase salt params key _ nonce ad ct plain hopen := by
    obtain ⟨w, hentry, rfl⟩ := Option.map_eq_some_iff.mp hopen
    obtain ⟨hmem, rfl, hnonce, had, hct⟩ := ledgerEntry_some hentry
    exact ⟨w, hmem, rfl, hnonce, had, hct, rfl⟩
  encrypt_length key nonce ad plain := by
    simp [ledgerCrates, checksumCrates]

def passphraseWrapping : MadeWrapping where
  format := .v2
  passphrase := [1]
  kek := ⟨List.replicate 32 7, List.length_replicate⟩
  params := owaspBaseline
  tag := aad.kekSelf
  salt := ⟨List.replicate 16 1, List.length_replicate⟩
  nonce := ⟨List.replicate 24 1, List.length_replicate⟩

/-- An old wrapping of the same K, whose salt begins with the magic. -/
def phraseWrapping : MadeWrapping where
  format := .v1
  passphrase := [2]
  kek := ⟨List.replicate 32 7, List.length_replicate⟩
  params := owaspBaseline
  tag := aad.kekRecovery
  salt := ⟨[0x53, 0x46, 0x4B, 0x32] ++ List.replicate 12 2, rfl⟩
  nonce := ⟨List.replicate 24 2, List.length_replicate⟩

/-- The two doors of a vault, in its two formats. -/
def doorWrappings : List MadeWrapping := [passphraseWrapping, phraseWrapping]

theorem doorWrappings_ideal : (ledgerCrates doorWrappings).Ideal doorWrappings := by
  have hne : passphraseWrapping.salt ≠ phraseWrapping.salt := by decide
  refine ledgerCrates_ideal (by decide) fun w hmem w' hmem' hsalt _ => ?_
  rcases List.mem_pair.mp hmem with rfl | rfl <;> rcases List.mem_pair.mp hmem' with rfl | rfl
  · rfl
  · exact absurd hsalt hne
  · exact absurd hsalt.symm hne
  · rfl

theorem exists_write {w : MadeWrapping} (h : validatedCosts (ledgerCrates made) w.params = .ok ()) :
    ∃ wrapped, w.write (ledgerCrates made) = .ok wrapped :=
  ⟨_, MadeWrapping.write_ok_iff.mpr ⟨_, deriveFromPassphrase_ok_iff.mpr ⟨h, rfl⟩, rfl⟩⟩

theorem kek_wrappings_doors :
    (∃ wrapped, passphraseWrapping.write (ledgerCrates doorWrappings) = .ok wrapped ∧
      ∀ fallback, unwrapKekUnderPassphrase (ledgerCrates doorWrappings) [1] wrapped fallback
        aad.kekSelf = .ok passphraseWrapping.kek) ∧
    ∃ wrapped, phraseWrapping.write (ledgerCrates doorWrappings) = .ok wrapped ∧
      isV2 wrapped = false ∧
        ∀ fallback kek, unwrapKekUnderPassphrase (ledgerCrates doorWrappings) [2] wrapped fallback
          aad.kekRecovery = .ok kek ↔ fallback = owaspBaseline ∧ kek = phraseWrapping.kek := by
  obtain ⟨new, hnew⟩ : ∃ wrapped, passphraseWrapping.write (ledgerCrates doorWrappings) =
      .ok wrapped := exists_write rfl
  obtain ⟨old, hold⟩ : ∃ wrapped, phraseWrapping.write (ledgerCrates doorWrappings) =
      .ok wrapped := exists_write rfl
  have hsound := (kek_wrappings_ideal.2 (ledgerCrates doorWrappings) doorWrappings
    doorWrappings_ideal).1
  have hself : passphraseWrapping ∈ doorWrappings := List.mem_cons_self
  have hphrase : phraseWrapping ∈ doorWrappings := List.mem_cons_of_mem _ List.mem_cons_self
  exact ⟨⟨new, hnew, (hsound _ hself new hnew).1 rfl⟩,
    ⟨old, hold, (hsound _ hphrase old hold).2.1 rfl⟩⟩

end Softfig.Vault
