import Softfig.LayerB.WritePath

/-!
The write path seals what it stores, and the read view loses nothing it hides.

A placeholder is replaced by whatever the prior region of its id stores, and a plaintext
body may move the string state of a TOML file. So the write path keeps its promise under a
condition on the prior regions and on the tags that count.

- `write_path_seals`: what it stores parses into the same regions, all ciphertext, exactly
  where placeholders stand for ciphertext and the tags that count do not depend on what the
  regions hold;
- `read_view_inverse`: a file of ciphertext comes back from its read view, and from every
  edit of the view that parses into the same regions.
-/

namespace Softfig.LayerB

open Softfig.Store (Bytes)
open Softfig.Lib

section Session

variable (cipher : RegionCipher) (path : String)

/-- The stored bytes parse into the regions of the content, in order and around the same
bytes, and each is ciphertext of what its region must hold. -/
def Seals (parser : RegionParser) (prior : Option Bytes) (content : Bytes)
    (spans : List RegionSpan) (out : Bytes) : Prop :=
  ∃ outSpans, parse cipher path parser out = .ok outSpans ∧
    outside out 0 outSpans = outside content 0 spans ∧
    (∀ span ∈ outSpans, span.kind = .ciphertext) ∧
    List.Forall₂
      (fun old new => new.1 = old.1 ∧ decryptBody cipher path new.1 new.2 =
        expected cipher path prior (priorSpans cipher path parser prior) old.1 old.2)
      (bodies content spans) (bodies out outSpans)

/-- Every placeholder whose id a prior region has stands for ciphertext. -/
def PlaceholdersSealed (parser : RegionParser) (prior : Option Bytes) (content : Bytes)
    (spans : List RegionSpan) : Prop :=
  ∀ r ∈ bodies content spans,
    PlaceholderSealed cipher path prior (priorSpans cipher path parser prior) r.1 r.2

instance (prior : Option Bytes) (spans : List RegionSpan) (id body : Bytes) :
    Decidable (PlaceholderSealed cipher path prior spans id body) :=
  inferInstanceAs (Decidable (body = encryptedPlaceholder →
    ∀ stored ∈ priorBody prior spans id, (decryptBody cipher path id stored).isSome))

instance (parser : RegionParser) (prior : Option Bytes) (content : Bytes)
    (spans : List RegionSpan) :
    Decidable (PlaceholdersSealed cipher path parser prior content spans) :=
  inferInstanceAs (Decidable (∀ r ∈ bodies content spans, _))

variable {cipher path}

theorem outside_spansAt (regions : List Region) (tail : Bytes) :
    outside (weave regions tail) 0 (spansAt cipher path 0 regions) = piecesOf [] regions tail :=
  outside_weave cipher path [] [] regions tail

theorem bodies_spansAt (regions : List Region) (tail : Bytes) :
    bodies (weave regions tail) (spansAt cipher path 0 regions) =
      regions.map fun r => (r.id, r.body) :=
  bodies_weave cipher path [] regions tail

theorem sameAround_reseat (l : List (Region × Option Bytes)) :
    List.Forall₂ Region.SameAround (l.map Prod.fst) (l.map reseat) := by
  induction l with
  | nil => exact List.Forall₂.nil
  | cons x l ih => exact List.Forall₂.cons ⟨rfl, rfl⟩ ih

/-- The regions with one body in the place of every other. -/
theorem sameAround_const (regions : List Region) (body : Bytes) :
    List.Forall₂ Region.SameAround regions (regions.map fun r => { r with body := body }) := by
  induction regions with
  | nil => exact List.Forall₂.nil
  | cons r more ih => exact List.Forall₂.cons ⟨rfl, rfl⟩ ih

theorem allInert_const {regions : List Region} (h : ∀ r ∈ regions, ValidId r.id) {body : Bytes}
    (hbody : Inert body) : AllInert (regions.map fun r => { r with body := body }) := by
  intro r hr
  obtain ⟨r, hmem, rfl⟩ := List.mem_map.mp hr
  exact ⟨h r hmem, hbody⟩

theorem inert_nil : Inert [] := fun _ hb => absurd hb List.not_mem_nil

theorem sameAround_of_mem {regions regions' : List Region}
    (h : List.Forall₂ Region.SameAround regions regions') :
    ∀ r' ∈ regions', ∃ r ∈ regions, r.SameAround r' := by
  induction h with
  | nil =>
    intro r' hr'
    cases hr'
  | @cons r r' more more' hr hmore ih =>
    intro r'' hr''
    obtain rfl | hmem := List.mem_cons.mp hr''
    · exact ⟨r, List.mem_cons_self, hr⟩
    · obtain ⟨s, hs, hsame⟩ := ih r'' hmem
      exact ⟨s, List.mem_cons_of_mem r hs, hsame⟩

theorem ids_same {regions regions' : List Region}
    (h : List.Forall₂ Region.SameAround regions regions') :
    regions'.map Region.id = regions.map Region.id := by
  induction h with
  | nil => rfl
  | cons hr _ ih => rw [List.map_cons, List.map_cons, hr.2, ih]

/-- UTF-8 bodies in the place of others keep a file UTF-8. -/
theorem isUtf8_same {regions regions' : List Region} {tail : Bytes}
    (hsame : List.Forall₂ Region.SameAround regions regions')
    (hvalid : ∀ r ∈ regions, ValidId r.id) (hutf8 : isUtf8 (weave regions tail) = true)
    (hbodies : ∀ r ∈ regions', isUtf8 r.body = true) :
    isUtf8 (weave regions' tail) = true := by
  obtain ⟨hregions, htail⟩ := (isUtf8_weave hvalid tail).mp hutf8
  have hmem := sameAround_of_mem hsame
  refine (isUtf8_weave ?_ tail).mpr ⟨?_, htail⟩
  · intro r' hr'
    obtain ⟨r, hr, -, hid⟩ := hmem r' hr'
    exact hid ▸ hvalid r hr
  · intro r' hr'
    obtain ⟨r, hr, hgap, -⟩ := hmem r' hr'
    exact ⟨hgap ▸ (hregions r hr).1, hbodies r' hr'⟩

/-- A file of inert bodies whose tags count like those of a file that parses parses into
the same regions. -/
theorem scans_same {parser : RegionParser} {regions regions' : List Region} {tail : Bytes}
    (hsame : List.Forall₂ Region.SameAround regions regions')
    (hscans : Scans parser.start [] regions tail) (hinert : AllInert regions')
    (hflags : openFlags parser (weave regions' tail) = openFlags parser (weave regions tail)) :
    Scans parser.start [] regions' tail := by
  refine scans_of_flagsIn parser.start_lawful hinert ?_ (fun r _ => List.not_mem_nil) ?_
  · rw [ids_same hsame]
    exact hscans.nodup.1
  · calc flagsIn parser.start (weave regions' tail) [] =
        flagsIn parser.start (weave regions tail) [] := hflags
      _ = flagsOf regions tail := flagsIn_of_scans parser.start_lawful hscans
      _ = flagsOf regions' tail := (flagsOf_same hsame tail).symm

theorem openFlags_inert (parser : RegionParser) {regions regions' : List Region}
    (hsame : List.Forall₂ Region.SameAround regions regions') (hinert : AllInert regions)
    (hinert' : AllInert regions') (tail : Bytes) :
    openFlags parser (weave regions' tail) = openFlags parser (weave regions tail) :=
  flagsIn_inert parser.start_lawful hsame hinert hinert' tail

theorem sameAround_trans {a b c : List Region} (hab : List.Forall₂ Region.SameAround a b)
    (hac : List.Forall₂ Region.SameAround a c) : List.Forall₂ Region.SameAround b c := by
  induction hab generalizing c with
  | nil =>
    cases hac
    exact List.Forall₂.nil
  | cons hr _ ih =>
    cases hac with
    | cons hr' hmore =>
      exact List.Forall₂.cons ⟨hr'.1.trans hr.1.symm, hr'.2.trans hr.2.symm⟩ (ih hmore)

theorem sameAround_symm {regions regions' : List Region}
    (h : List.Forall₂ Region.SameAround regions regions') :
    List.Forall₂ Region.SameAround regions' regions := by
  induction h with
  | nil => exact List.Forall₂.nil
  | cons hr _ ih => exact List.Forall₂.cons ⟨hr.1.symm, hr.2.symm⟩ ih

variable (cipher path) in
/-- Bodies that decrypt are inert. -/
theorem allInert_of_decrypt {regions : List Region} (hvalid : ∀ r ∈ regions, ValidId r.id)
    (h : ∀ r ∈ regions, ∃ plain, decryptBody cipher path r.id r.body = some plain) :
    AllInert regions := by
  intro r hr
  obtain ⟨plain, hplain⟩ := h r hr
  obtain ⟨bytes, hbytes⟩ := decode_of_decryptBody hplain
  exact ⟨hvalid r hr, inert_of_decode hbytes⟩

/-- What the write path makes of a file that parses, sealed or not. -/
theorem seals_weave {parser : RegionParser} {prior : Option Bytes}
    {l : List (Region × Option Bytes)} {tail : Bytes}
    (hutf8 : isUtf8 (weave (l.map Prod.fst) tail) = true)
    (hscans : Scans parser.start [] (l.map Prod.fst) tail)
    (hnew : ∀ x ∈ l, NewBody cipher path prior (priorSpans cipher path parser prior) x) :
    Seals cipher path parser prior (weave (l.map Prod.fst) tail)
        (spansAt cipher path 0 (l.map Prod.fst)) (weave (l.map reseat) tail) ↔
      (∀ x ∈ l, PlaceholderSealed cipher path prior (priorSpans cipher path parser prior)
          x.1.id x.1.body) ∧
        Scans parser.start [] (l.map reseat) tail := by
  have hsame := sameAround_reseat l
  have hvalid := fun r hr => (hscans.valid r hr).1
  have houtUtf8 : isUtf8 (weave (l.map reseat) tail) = true := by
    refine isUtf8_same hsame hvalid hutf8 fun r hr => ?_
    obtain ⟨x, hx, rfl⟩ := List.mem_map.mp hr
    exact (hnew x hx).closed.1
  constructor
  · rintro ⟨outSpans, hparse, houtside, -, hbodies⟩
    obtain ⟨hbad, -⟩ | ⟨-, regions, tail', heq, houtScans, rfl⟩ := parse_eq_ok hparse
    · rw [houtUtf8] at hbad
      cases hbad
    · rw [heq, outside_spansAt, outside_spansAt] at houtside
      rw [heq, bodies_spansAt, bodies_spansAt, List.forall₂_map_left_iff,
        List.forall₂_map_right_iff] at hbodies
      obtain ⟨hsame', rfl⟩ := sameAround_of_piecesOf (hbodies.imp fun _ _ h => h.1) houtside
      obtain rfl := weave_injective (sameAround_trans hsame hsame')
        (fun r hr => by
          obtain ⟨x, hx, rfl⟩ := List.mem_map.mp hr
          exact (hnew x hx).closed.2)
        (fun r hr => (houtScans.valid r hr).2) heq
      refine ⟨fun x hx => (hnew x hx).sealed_iff.mp ?_, houtScans⟩
      rw [List.forall₂_map_left_iff, List.forall₂_map_right_iff, List.forall₂_same] at hbodies
      exact (hbodies x hx).2
  · rintro ⟨hsealed, houtScans⟩
    refine ⟨_, parse_weave houtUtf8 houtScans, ?_, ?_, ?_⟩
    · rw [outside_spansAt, outside_spansAt, piecesOf_same hsame]
    · intro span hspan
      obtain ⟨r, hr, -, hkind⟩ := mem_spansAt hspan
      obtain ⟨x, hx, rfl⟩ := List.mem_map.mp hr
      obtain ⟨plain, hplain⟩ := (hnew x hx).decrypts (hsealed x hx)
      rw [hkind, classifyBody_eq_ciphertext]
      exact Option.isSome_iff_exists.mpr ⟨plain, hplain⟩
    · rw [bodies_spansAt, bodies_spansAt, List.forall₂_map_left_iff, List.forall₂_map_right_iff,
        List.forall₂_map_left_iff, List.forall₂_map_right_iff, List.forall₂_same]
      exact fun x hx => ⟨rfl, (hnew x hx).sealed_iff.mpr (hsealed x hx)⟩

/-- **What the write path stores is sealed** exactly where every placeholder stands for
ciphertext and the tags that count do not depend on what the regions hold. -/
theorem write_path_seals {parser : RegionParser} {prior : Option Bytes} {content out : Bytes}
    {spans : List RegionSpan} (hparse : parse cipher path parser content = .ok spans)
    (hwrite : applyWritePath cipher path content spans prior
      (priorSpans cipher path parser prior) = .ok out) :
    Seals cipher path parser prior content spans out ↔
      PlaceholdersSealed cipher path parser prior content spans ∧
        openFlags parser content = openFlags parser (cutBodies content spans) := by
  obtain ⟨-, rfl⟩ | ⟨hutf8, regions, tail, rfl, hscans, rfl⟩ := parse_eq_ok hparse
  · cases hwrite
    refine iff_of_true ⟨[], hparse, rfl, ?_, List.Forall₂.nil⟩ ⟨?_, rfl⟩
    · exact fun span hspan => absurd hspan List.not_mem_nil
    · exact fun r hr => absurd hr List.not_mem_nil
  · obtain ⟨l, rfl, hnew, rfl⟩ := (applyWritePath_weave regions tail).mp hwrite
    have hsame := sameAround_reseat l
    have hcut := sameAround_const (l.map Prod.fst) []
    have hvalid := fun r hr => (hscans.valid r hr).1
    have hsealed : PlaceholdersSealed cipher path parser prior (weave (l.map Prod.fst) tail)
        (spansAt cipher path 0 (l.map Prod.fst)) ↔
          ∀ x ∈ l, PlaceholderSealed cipher path prior (priorSpans cipher path parser prior)
            x.1.id x.1.body := by
      rw [PlaceholdersSealed, bodies_spansAt]
      simp only [List.mem_map, forall_exists_index, and_imp, forall_apply_eq_imp_iff₂]
    rw [seals_weave hutf8 hscans hnew, hsealed, cutBodies_weave]
    refine and_congr_right fun hplaceholders => ?_
    have hinert : AllInert (l.map reseat) := by
      refine allInert_of_decrypt cipher path ?_ ?_
      · intro r hr
        obtain ⟨s, hs, -, hid⟩ := sameAround_of_mem hsame r hr
        exact hid ▸ hvalid s hs
      · intro r hr
        obtain ⟨x, hx, rfl⟩ := List.mem_map.mp hr
        exact (hnew x hx).decrypts (hplaceholders x hx)
    have hflags := openFlags_inert parser (sameAround_trans hcut hsame) (allInert_const hvalid inert_nil)
      hinert tail
    rw [← hflags]
    constructor
    · intro houtScans
      calc openFlags parser (weave (l.map Prod.fst) tail) = flagsOf (l.map Prod.fst) tail :=
            flagsIn_of_scans parser.start_lawful hscans
        _ = flagsOf (l.map reseat) tail := (flagsOf_same hsame tail).symm
        _ = openFlags parser (weave (l.map reseat) tail) :=
            (flagsIn_of_scans parser.start_lawful houtScans).symm
    · exact fun hsame' => scans_same hsame hscans hinert hsame'.symm

/-- Only a TOML file has tags whose counting depends on what a region holds. -/
theorem openFlags_cutBodies {parser : RegionParser} (hparser : parser ≠ .toml) {content : Bytes}
    {spans : List RegionSpan} (hparse : parse cipher path parser content = .ok spans) :
    openFlags parser content = openFlags parser (cutBodies content spans) := by
  obtain ⟨-, rfl⟩ | ⟨-, regions, tail, rfl, hscans, rfl⟩ := parse_eq_ok hparse
  · rfl
  · have hstart : ¬ parser.start.IsToml := by
      cases parser with
      | markdown => exact id
      | toml => exact absurd rfl hparser
      | plainText => exact id
    rw [cutBodies_weave]
    exact (flagsIn_cut parser.start_lawful hstart hscans (sameAround_const regions [])
      (allInert_const (fun r hr => (hscans.valid r hr).1) inert_nil)).symm

end Session

section Cipher

/-- A cipher that only marks what it seals. -/
def markCipher : RegionCipher where
  encrypt _ _ plain := some (0xFF :: plain)
  decrypt _ _ blob :=
    match blob with
    | 0xFF :: plain => some plain
    | _ => none
  decrypt_encrypt := by
    intro _ _ plain blob h
    cases h
    rfl

def storedSealed : Bytes := ascii "<vault id=\"k\">/2hp</vault> end"

def editedView : Bytes := ascii "<vault id=\"k\">[encrypted]</vault> <vault id=\"n\">new</vault>"

def editedSpans : List RegionSpan :=
  [⟨ascii "k", ⟨14, 25⟩, .plaintext⟩, ⟨ascii "n", ⟨48, 51⟩, .plaintext⟩]

def editedStored : Bytes := ascii "<vault id=\"k\">/2hp</vault> <vault id=\"n\">/25ldw==</vault>"

theorem write_path_seals_edited :
    Seals markCipher "f" .plainText (some storedSealed) editedView editedSpans editedStored :=
  (write_path_seals (by decide +kernel) (by decide +kernel)).mpr
    ⟨by decide +kernel, by decide +kernel⟩

/-- The stored file, its only region not yet sealed. -/
def storedPlain : Bytes := ascii "<vault id=\"k\">hunter2</vault>"

theorem openFlags_cutBodies_stored : openFlags .plainText storedPlain =
    openFlags .plainText (cutBodies storedPlain [⟨ascii "k", ⟨14, 21⟩, .plaintext⟩]) :=
  @openFlags_cutBodies markCipher "f" .plainText (by decide) _ _ (by decide +kernel)

def hiddenView : Bytes := ascii "<vault id=\"k\">[encrypted]</vault>"

/-- A placeholder brings a plaintext body back into the store. -/
theorem write_path_seals_fails :
    ¬ ∀ (cipher : RegionCipher) (path : String) (parser : RegionParser) (prior : Option Bytes)
        (content out : Bytes) (spans : List RegionSpan),
      parse cipher path parser content = .ok spans →
      applyWritePath cipher path content spans prior
        (priorSpans cipher path parser prior) = .ok out →
      Seals cipher path parser prior content spans out := by
  intro h
  obtain ⟨outSpans, hparse, -, hkind, -⟩ := h markCipher "f" .plainText (some storedPlain) hiddenView
    storedPlain [⟨ascii "k", ⟨14, 25⟩, .plaintext⟩] (by decide +kernel) (by decide +kernel)
  have hstored : parse markCipher "f" .plainText storedPlain =
      .ok [⟨ascii "k", ⟨14, 21⟩, .plaintext⟩] := by decide +kernel
  rw [hstored] at hparse
  cases hparse
  exact absurd (hkind _ List.mem_cons_self) (by decide)

end Cipher

end Softfig.LayerB
