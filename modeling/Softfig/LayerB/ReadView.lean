import Softfig.LayerB.Redaction

/-!
The read view and the write path are inverse on files of ciphertext.

An editor of the read view sees placeholders only. What it writes back finds, by id, the
ciphertext each placeholder stands for, so long as what it writes parses into the same
regions: text around a region may mask it, and then its placeholder stays.

- `read_view_inverse`: the file comes back from its read view byte for byte, and from an
  edit of the view that parses into the same regions with the edit around its bodies.
-/

namespace Softfig.LayerB

open Softfig.Store (Bytes)
open Softfig.Lib

section Session

variable {cipher : RegionCipher} {path : String}

theorem priorBody_eq_find (content id : Bytes) (spans : List RegionSpan) :
    priorBody (some content) spans id =
      ((bodies content spans).find? fun r => r.1 = id).map Prod.snd := by
  rw [priorBody, bodies, List.find?_map, Option.bind_some, Option.map_map]
  rfl

theorem find_of_nodup {stored : List (Bytes × Bytes)} (h : (stored.map Prod.fst).Nodup)
    {r : Bytes × Bytes} (hr : r ∈ stored) : stored.find? (fun s => s.1 = r.1) = some r := by
  induction stored with
  | nil => cases hr
  | cons s stored ih =>
    rw [List.map_cons, List.nodup_cons] at h
    obtain rfl | hmem := List.mem_cons.mp hr
    · simp
    · have hne : s.1 ≠ r.1 := fun heq => h.1 (heq ▸ List.mem_map_of_mem hmem)
      rw [List.find?_cons_of_neg (by simpa using hne), ih h.2 hmem]

variable (cipher path) in
theorem exists_spansAt (pos : Nat) {regions : List Region} {r : Region} (h : r ∈ regions) :
    ∃ span ∈ spansAt cipher path pos regions, span.id = r.id ∧
      span.kind = classifyBody cipher path r.body r.id := by
  induction regions generalizing pos with
  | nil => cases h
  | cons s more ih =>
    obtain rfl | hmem := List.mem_cons.mp h
    · exact ⟨_, List.mem_cons_self, rfl, rfl⟩
    · obtain ⟨span, hspan, hr⟩ := ih _ hmem
      exact ⟨span, List.mem_cons_of_mem _ hspan, hr⟩

/-- The regions of a file of ciphertext: their ids differ and their bodies decrypt. -/
theorem bodies_sealed {parser : RegionParser} {content : Bytes} {spans : List RegionSpan}
    (hparse : parse cipher path parser content = .ok spans)
    (hsealed : ∀ span ∈ spans, span.kind = .ciphertext) :
    ((bodies content spans).map Prod.fst).Nodup ∧ ∀ r ∈ bodies content spans,
      ∃ plain, decryptBody cipher path r.1 r.2 = some plain := by
  obtain ⟨-, rfl⟩ | ⟨-, regions, tail, rfl, hscans, rfl⟩ := parse_eq_ok hparse
  · exact ⟨List.nodup_nil, fun r hr => absurd hr List.not_mem_nil⟩
  · rw [bodies_spansAt, List.map_map]
    refine ⟨hscans.nodup.1, fun s hs => ?_⟩
    obtain ⟨r, hr, rfl⟩ := List.mem_map.mp hs
    obtain ⟨span, hspan, hid, hkind⟩ := exists_spansAt cipher path 0 hr
    rw [hsealed span hspan] at hkind
    exact Option.isSome_iff_exists.mp (classifyBody_eq_ciphertext.mp hkind.symm)

/-- The bodies put back into regions whose bodies are placeholders. -/
theorem restore {regions : List Region} {stored : List (Bytes × Bytes)}
    (h : (regions.map fun r => (r.id, r.body)) =
      stored.map fun r => (r.1, encryptedPlaceholder)) :
    ∃ l : List (Region × Option Bytes), l.map Prod.fst = regions ∧
      ((l.map reseat).map fun r => (r.id, r.body)) = stored ∧
      ∀ x ∈ l, x.1.body = encryptedPlaceholder ∧ ∃ body, x.2 = some body ∧ (x.1.id, body) ∈ stored := by
  induction stored generalizing regions with
  | nil =>
    rw [List.map_nil, List.map_eq_nil_iff] at h
    subst h
    exact ⟨[], rfl, rfl, fun x hx => absurd hx List.not_mem_nil⟩
  | cons s stored ih =>
    rw [List.map_cons, List.map_eq_cons_iff] at h
    obtain ⟨r, more, rfl, hr, hmore⟩ := h
    obtain ⟨l, rfl, hstored, hl⟩ := ih hmore
    obtain ⟨hid, hbody⟩ := Prod.mk.inj hr
    refine ⟨(r, some s.2) :: l, rfl, ?_, ?_⟩
    · rw [List.map_cons, List.map_cons, hstored]
      simp [reseat, hid]
    · simp only [List.mem_cons, forall_eq_or_imp]
      refine ⟨⟨hbody, s.2, rfl, Or.inl (by rw [hid])⟩, fun x hx => ?_⟩
      obtain ⟨hplaceholder, body, hnew, hmem⟩ := hl x hx
      exact ⟨hplaceholder, body, hnew, Or.inr hmem⟩

theorem placeholder_inert : Inert encryptedPlaceholder := by
  unfold Inert
  decide +kernel

/-- What the write path makes of regions whose bodies are placeholders. -/
theorem write_restores {parser : RegionParser} {content : Bytes} {spans : List RegionSpan}
    (hparse : parse cipher path parser content = .ok spans)
    (hsealed : ∀ span ∈ spans, span.kind = .ciphertext) {regions : List Region} {tail : Bytes}
    (hutf8 : isUtf8 (weave regions tail) = true) (hscans : Scans parser.start [] regions tail)
    (hbodies : (regions.map fun r => (r.id, r.body)) =
      (bodies content spans).map fun r => (r.1, encryptedPlaceholder)) :
    ∃ restored : List Region, List.Forall₂ Region.SameAround regions restored ∧
      (restored.map fun r => (r.id, r.body)) = bodies content spans ∧
      applyWritePath cipher path (weave regions tail) (spansAt cipher path 0 regions)
        (some content) spans = .ok (weave restored tail) ∧
      parse cipher path parser (weave restored tail) =
        .ok (spansAt cipher path 0 restored) := by
  obtain ⟨hnodup, hdecrypt⟩ := bodies_sealed hparse hsealed
  obtain ⟨l, rfl, hstored, hl⟩ := restore hbodies
  have hsame := sameAround_reseat l
  have hvalid := fun r hr => (hscans.valid r hr).1
  have hmem : ∀ r ∈ l.map reseat, (r.id, r.body) ∈ bodies content spans := fun r hr => by
    rw [← hstored]
    exact List.mem_map_of_mem hr
  have hinert : AllInert (l.map reseat) := by
    refine allInert_of_decrypt cipher path ?_ fun r hr => hdecrypt _ (hmem r hr)
    intro r hr
    obtain ⟨s, hs, -, hid⟩ := sameAround_of_mem hsame r hr
    exact hid ▸ hvalid s hs
  have hplaceholders : AllInert (l.map Prod.fst) := by
    intro r hr
    obtain ⟨x, hx, rfl⟩ := List.mem_map.mp hr
    refine ⟨hvalid _ hr, ?_⟩
    rw [(hl x hx).1]
    exact placeholder_inert
  refine ⟨l.map reseat, hsame, hstored, ?_, ?_⟩
  · refine (applyWritePath_weave _ tail).mpr ⟨l, rfl, fun x hx => ?_, rfl⟩
    obtain ⟨hplaceholder, body, hnew, hbody⟩ := hl x hx
    have hprior : priorBody (some content) spans x.1.id = some body := by
      rw [priorBody_eq_find, find_of_nodup hnodup hbody]
      rfl
    have hkind : classifyBody cipher path x.1.body x.1.id = .plaintext := by
      rw [classifyBody_eq_plaintext, hplaceholder, placeholder_plaintext]
    unfold NewBody
    rw [hkind]
    exact ⟨body, hnew, sealBody_eq_ok.mpr (Or.inl ⟨hplaceholder, hprior⟩)⟩
  · refine parse_weave ?_ (scans_same hsame hscans hinert
      (openFlags_inert parser hsame hplaceholders hinert tail))
    refine isUtf8_same hsame hvalid hutf8 fun r hr => ?_
    obtain ⟨plain, hplain⟩ := hdecrypt _ (hmem r hr)
    obtain ⟨bytes, hbytes⟩ := decode_of_decryptBody hplain
    exact isUtf8_of_decode hbytes

/-- The view of a file of ciphertext: its regions around placeholders. -/
theorem renderReadView_weave {regions : List Region} {tail : Bytes}
    (hsealed : ∀ span ∈ spansAt cipher path 0 regions, span.kind = .ciphertext) :
    renderReadView (weave regions tail) (spansAt cipher path 0 regions) =
      weave (regions.map fun r => { r with body := encryptedPlaceholder }) tail := by
  rw [renderReadView, List.filter_eq_self.mpr fun span hspan => decide_eq_true (hsealed span hspan)]
  exact withSubstitutions_const cipher path regions tail encryptedPlaceholder

/-- Regions around the same bytes with the same bodies are the same. -/
theorem eq_of_sameAround {regions regions' : List Region}
    (hsame : List.Forall₂ Region.SameAround regions regions')
    (hbodies : (regions'.map fun r => (r.id, r.body)) = regions.map fun r => (r.id, r.body)) :
    regions' = regions := by
  induction hsame with
  | nil => rfl
  | @cons r r' more more' hr _ ih =>
    rw [List.map_cons, List.map_cons, List.cons.injEq] at hbodies
    obtain ⟨gap, id, body⟩ := r
    obtain ⟨gap', id', body'⟩ := r'
    obtain ⟨rfl, rfl⟩ : gap' = gap ∧ id' = id := hr
    obtain ⟨-, rfl⟩ : id' = id' ∧ body' = body := Prod.mk.inj hbodies.1
    rw [ih hbodies.2]

/-- The view of a file of ciphertext is written back as the file. -/
theorem write_view {parser : RegionParser} {content : Bytes} {spans : List RegionSpan}
    (hparse : parse cipher path parser content = .ok spans)
    (hsealed : ∀ span ∈ spans, span.kind = .ciphertext) :
    ∃ viewSpans, parse cipher path parser (renderReadView content spans) = .ok viewSpans ∧
      applyWritePath cipher path (renderReadView content spans) viewSpans (some content) spans =
        .ok content := by
  obtain ⟨-, rfl⟩ | ⟨hutf8, regions, tail, rfl, hscans, rfl⟩ := parse_eq_ok hparse
  · exact ⟨[], hparse, rfl⟩
  · have hvalid := fun r hr => (hscans.valid r hr).1
    have hsame := sameAround_const regions encryptedPlaceholder
    have hhidden := allInert_const hvalid placeholder_inert
    obtain ⟨-, hdecrypt⟩ := bodies_sealed hparse hsealed
    have hinert : AllInert regions := by
      refine allInert_of_decrypt cipher path hvalid fun r hr => ?_
      refine hdecrypt (r.id, r.body) ?_
      rw [bodies_spansAt]
      exact List.mem_map_of_mem hr
    have hviewUtf8 := isUtf8_same hsame hvalid hutf8 fun r hr => by
      obtain ⟨r, -, rfl⟩ := List.mem_map.mp hr
      exact (by decide : isUtf8 encryptedPlaceholder = true)
    have hviewScans := scans_same hsame hscans hhidden
      (openFlags_inert parser hsame hinert hhidden tail)
    have hbodies : ((regions.map fun r => { r with body := encryptedPlaceholder }).map
          fun r : Region => (r.id, r.body)) =
        (bodies (weave regions tail) (spansAt cipher path 0 regions)).map
          fun r => (r.1, encryptedPlaceholder) := by
      rw [bodies_spansAt, List.map_map, List.map_map]
      rfl
    obtain ⟨restored, haround, hrestored, hwrite, -⟩ :=
      write_restores hparse hsealed hviewUtf8 hviewScans hbodies
    rw [bodies_spansAt] at hrestored
    obtain rfl := eq_of_sameAround (sameAround_trans (sameAround_symm hsame) haround) hrestored
    rw [renderReadView_weave hsealed]
    exact ⟨_, parse_weave hviewUtf8 hviewScans, hwrite⟩

/-- **The read view and the write path are inverse** on a file of ciphertext: it comes back
from its view, and from an edit of the view that parses into the same regions it comes back
with the edit around its bodies. -/
theorem read_view_inverse {parser : RegionParser} {content : Bytes} {spans : List RegionSpan}
    (hparse : parse cipher path parser content = .ok spans)
    (hsealed : ∀ span ∈ spans, span.kind = .ciphertext) :
    (∃ viewSpans, parse cipher path parser (renderReadView content spans) = .ok viewSpans ∧
      applyWritePath cipher path (renderReadView content spans) viewSpans (some content) spans =
        .ok content) ∧
    ∀ edited editedSpans, parse cipher path parser edited = .ok editedSpans →
      bodies edited editedSpans =
        (bodies content spans).map (fun r => (r.1, encryptedPlaceholder)) →
      ∃ out outSpans,
        applyWritePath cipher path edited editedSpans (some content) spans = .ok out ∧
        parse cipher path parser out = .ok outSpans ∧
        outside out 0 outSpans = outside edited 0 editedSpans ∧
        bodies out outSpans = bodies content spans := by
  refine ⟨write_view hparse hsealed, ?_⟩
  obtain ⟨-, rfl⟩ | ⟨hutf8, regions, tail, rfl, hscans, rfl⟩ := parse_eq_ok hparse
  · intro edited editedSpans hedited hbodies
    obtain rfl : editedSpans = [] := by simpa [bodies] using hbodies
    exact ⟨edited, [], rfl, hedited, rfl, rfl⟩
  · intro edited editedSpans hedited hbodies
    obtain ⟨-, rfl⟩ | ⟨hutf8', regions', tail', rfl, hscans', rfl⟩ := parse_eq_ok hedited
    · have hnil : bodies (weave regions tail) (spansAt cipher path 0 regions) = [] :=
        List.map_eq_nil_iff.mp hbodies.symm
      exact ⟨edited, [], rfl, hedited, rfl, hnil.symm⟩
    · rw [bodies_spansAt] at hbodies
      obtain ⟨restored, haround, hrestored, hwrite, hout⟩ :=
        write_restores hparse hsealed hutf8' hscans' hbodies
      refine ⟨_, _, hwrite, hout, ?_, ?_⟩
      · rw [outside_spansAt, outside_spansAt, piecesOf_same haround]
      · rw [← hrestored, bodies_spansAt]

end Session

section Cipher

theorem read_view_inverse_sealed :
    (∃ viewSpans, parse markCipher "f" .plainText
        (renderReadView storedSealed [⟨ascii "k", ⟨14, 18⟩, .ciphertext⟩]) = .ok viewSpans ∧
      applyWritePath markCipher "f"
        (renderReadView storedSealed [⟨ascii "k", ⟨14, 18⟩, .ciphertext⟩]) viewSpans
          (some storedSealed) [⟨ascii "k", ⟨14, 18⟩, .ciphertext⟩] = .ok storedSealed) :=
  (read_view_inverse (by decide +kernel) (by decide +kernel)).1

/-- Text put before a region may mask it, and its placeholder is stored. -/
theorem read_view_inverse_fails :
    ¬ ∀ (cipher : RegionCipher) (path : String) (parser : RegionParser) (content before : Bytes)
        (spans editedSpans : List RegionSpan),
      parse cipher path parser content = .ok spans →
      (∀ span ∈ spans, span.kind = .ciphertext) →
      parse cipher path parser (before ++ renderReadView content spans) = .ok editedSpans →
      applyWritePath cipher path (before ++ renderReadView content spans) editedSpans
        (some content) spans = .ok (before ++ content) := by
  intro h
  have hedit := h markCipher "f" .markdown storedSealed (ascii "```\n")
    [⟨ascii "k", ⟨14, 18⟩, .ciphertext⟩] [] (by decide +kernel) (by decide +kernel)
    (by decide +kernel)
  exact absurd hedit (by decide +kernel)

end Cipher

end Softfig.LayerB
