import Softfig.LayerB.ReadView
import Softfig.Vcs.Path
import Softfig.Vcs.Repo

/-!
How a commit stores a file, and what a reveal gives back.

The device chain seals a file that a glob matches as a whole, and the inline regions of any other
file. A shared chain seals under its own key, and takes no inline regions. A reveal reads the tip of
the device chain only.

- `revealRegion_eq`: a revealed region is what the region holds;
- `mem_regionIds`: the ids of the sealed regions of a file;
- `revealRegion_moved`: a sealed region read at another path is the ciphertext itself;
- `revealRegion_resealed`: and so it is once that path has been committed.
-/

namespace Softfig.LayerB

open Softfig.Store (Bytes)
open Softfig.Lib
open Softfig.Vcs (Path tipRef)

/-! ### The session and the hook -/

/-- `Path::extension` of a file name. -/
def extension (name : String) : Option String :=
  match name.toList.reverse.dropWhile (· ≠ '.') with
  | '.' :: stem =>
    if stem = [] then none else some (String.ofList (name.toList.drop (stem.length + 1)))
  | _ => none

def parserFor (path : String) : RegionParser :=
  match (Path.parse path).names.getLast?.bind extension with
  | some "md" => .markdown
  | some "toml" => .toml
  | _ => .plainText

/-- The ciphers of a session. What is sealed is opened again, and a whole-file seal is told apart
from any other blob. -/
structure VaultSession where
  region : RegionCipher
  encryptBlob : Bytes → Bytes
  encryptLayerB : String → Bytes → Bytes
  encryptSharedBlob : String → Bytes → Option Bytes
  encryptSharedLayerB : String → String → Bytes → Option Bytes
  decryptTrackedBlob : String → Bytes → Option Bytes
  isLayerB : Bytes → Bool
  blob : ∀ path content, decryptTrackedBlob path (encryptBlob content) = some content ∧
    isLayerB (encryptBlob content) = false
  layerB : ∀ path content, decryptTrackedBlob path (encryptLayerB path content) = some content ∧
    isLayerB (encryptLayerB path content) = true
  sharedBlob : ∀ keyId path content cipher, encryptSharedBlob keyId content = some cipher →
    decryptTrackedBlob path cipher = some content ∧ isLayerB cipher = false
  sharedLayerB : ∀ keyId path content cipher,
    encryptSharedLayerB keyId path content = some cipher →
      decryptTrackedBlob path cipher = some content ∧ isLayerB cipher = true

/-- The sealed globs, and the key and the mount of each keyed shared chain. -/
structure LayerBHook where
  isSealed : String → Bool
  sharedKeyFor : String → Option (String × String)

section

variable (session : VaultSession) (hook : LayerBHook)

/-- `BlobEncryptor::encrypt`; none where the commit is refused. -/
def LayerBHook.encrypt (path : String) (prior : Option Bytes) (content : Bytes) : Option Bytes :=
  if hook.isSealed path then some (session.encryptLayerB path content)
  else (sealFile session.region path (parserFor path) prior content).toOption.map
    session.encryptBlob

/-- The path in the garden of a file of a shared chain. -/
def gardenPath (mount path : String) : String :=
  if mount.isEmpty then path else mount ++ "/" ++ path

/-- `encrypt_for_ref`: the path is relative to the chain. -/
def LayerBHook.encryptForRef (refName path : String) (prior : Option Bytes) (content : Bytes) :
    Option Bytes :=
  if refName = tipRef then hook.encrypt session path prior content
  else
    match hook.sharedKeyFor refName with
    | none => none
    | some (keyId, mount) =>
      let path := gardenPath mount path
      if hook.isSealed path then session.encryptSharedLayerB keyId path content
      else
        match parse session.region path (parserFor path) content with
        | .ok [] => session.encryptSharedBlob keyId content
        | _ => none

/-- The ids of the sealed regions of a file. -/
def LayerBHook.regionIds (path : String) (content : Bytes) : List Bytes :=
  if hook.isSealed path then []
  else
    match parse session.region path (parserFor path) content with
    | .error _ => []
    | .ok spans => (spans.filter fun span => span.kind = .ciphertext).map RegionSpan.id

/-- A region as it is revealed. -/
def revealSpan (path : String) (content : Bytes) (span : RegionSpan) : Option Bytes :=
  match span.kind with
  | .plaintext => some (span.body.slice content)
  | .ciphertext => decryptBody session.region path span.id (span.body.slice content)

def revealRegion (path : String) (content id : Bytes) : Option Bytes :=
  match parse session.region path (parserFor path) content with
  | .error _ => none
  | .ok spans => (spans.find? fun span => span.id = id).bind (revealSpan session path content)

/-- The file with every region revealed in its place, none where it has no region. -/
def revealRegions (path : String) (content : Bytes) : Option Bytes :=
  match parse session.region path (parserFor path) content with
  | .error _ => none
  | .ok [] => none
  | .ok spans => do
    let sealedSpans := spans.filter fun span => span.kind = .ciphertext
    let subs ← sealedSpans.mapM fun span =>
      (revealSpan session path content span).map fun plain => (span.body, plain)
    return withSubstitutions content subs

/-- `vault_reveal` of a blob in the tip of the device chain. -/
def LayerBHook.reveal (path : String) (blob : Bytes) (id : Option Bytes) : Option Bytes :=
  (session.decryptTrackedBlob path blob).bind fun content =>
    match id with
    | some id => revealRegion session path content id
    | none => if hook.isSealed path then some content else revealRegions session path content

end

/-- Path-bound authenticated encryption: a sealed body opens at one path only, and is longer than
what it seals. -/
structure RegionCipher.Ideal (cipher : RegionCipher) : Prop where
  bound : ∀ path path' id blob, (cipher.decrypt path id blob).isSome →
    (cipher.decrypt path' id blob).isSome → path = path'
  longer : ∀ path id blob plain, cipher.decrypt path id blob = some plain →
    plain.length < blob.length

/-! ### Revealed regions -/

section

variable {session : VaultSession} {hook : LayerBHook} {path : String}

theorem kind_spansAt (cipher : RegionCipher) (path : String) (pre : Bytes) (regions : List Region)
    (tail : Bytes) : ∀ span ∈ spansAt cipher path pre.length regions,
      span.kind =
        classifyBody cipher path (span.body.slice (pre ++ weave regions tail)) span.id := by
  induction regions generalizing pre with
  | nil => exact fun span hspan => absurd hspan List.not_mem_nil
  | cons r more ih =>
    have hslice := slice_append (pre ++ (r.gap ++ openTag r.id)) r.body
      (closeMark ++ weave more tail)
    have hrest := ih (pre ++ (r.gap ++ (openTag r.id ++ (r.body ++ closeMark))))
    simp only [List.append_assoc, List.length_append, Nat.add_assoc] at hslice hrest
    intro span hspan
    rw [weave]
    rcases List.mem_cons.mp hspan with rfl | hspan
    · simp only [List.length_append, Nat.add_assoc, hslice]
    · simp only [List.length_append, Nat.add_assoc] at hspan
      exact hrest span hspan

/-- The kind of a region is what its body is. -/
theorem kind_of_parse {cipher : RegionCipher} {parser : RegionParser} {content : Bytes}
    {spans : List RegionSpan} (hparse : parse cipher path parser content = .ok spans) :
    ∀ span ∈ spans, span.kind = classifyBody cipher path (span.body.slice content) span.id := by
  obtain ⟨-, rfl⟩ | ⟨-, regions, tail, rfl, -, rfl⟩ := parse_eq_ok hparse
  · exact fun span hspan => absurd hspan List.not_mem_nil
  · exact kind_spansAt cipher path [] regions tail

theorem revealSpan_eq {content : Bytes} {span : RegionSpan}
    (hkind : span.kind = classifyBody session.region path (span.body.slice content) span.id) :
    revealSpan session path content span =
      some (held session.region path span.id (span.body.slice content)) := by
  unfold revealSpan held
  cases hspan : span.kind with
  | plaintext =>
    rw [hspan] at hkind
    rw [classifyBody_eq_plaintext.mp hkind.symm]
    rfl
  | ciphertext =>
    rw [hspan] at hkind
    obtain ⟨plain, hplain⟩ := Option.isSome_iff_exists.mp (classifyBody_eq_ciphertext.mp hkind.symm)
    rw [hplain]
    rfl

/-- **A revealed region is what the region holds.** -/
theorem revealRegion_eq {content : Bytes} {spans : List RegionSpan}
    (hparse : parse session.region path (parserFor path) content = .ok spans) (id : Bytes) :
    revealRegion session path content id = ((bodies content spans).find? fun r => r.1 = id).map
      fun r => held session.region path r.1 r.2 := by
  rw [revealRegion, hparse, bodies, List.find?_map, Option.map_map]
  dsimp only
  cases hfind : spans.find? fun span => span.id = id with
  | none =>
    have hfind : spans.find? ((fun r : Bytes × Bytes => decide (r.1 = id)) ∘ fun span =>
        (span.id, span.body.slice content)) = none := hfind
    rw [hfind]
    rfl
  | some span =>
    have hkind := kind_of_parse hparse span (List.mem_of_find?_eq_some hfind)
    have hfind : spans.find? ((fun r : Bytes × Bytes => decide (r.1 = id)) ∘ fun span =>
        (span.id, span.body.slice content)) = some span := hfind
    rw [hfind]
    exact revealSpan_eq hkind

/-- The regions of a file have different ids. -/
theorem bodies_nodup {cipher : RegionCipher} {parser : RegionParser} {content : Bytes}
    {spans : List RegionSpan} (hparse : parse cipher path parser content = .ok spans) :
    ((bodies content spans).map Prod.fst).Nodup := by
  obtain ⟨-, rfl⟩ | ⟨-, regions, tail, rfl, hscans, rfl⟩ := parse_eq_ok hparse
  · exact List.nodup_nil
  · rw [bodies_spansAt, List.map_map]
    exact hscans.nodup.1

/-- A sealed region of a file: its id is listed, and its body opens. -/
theorem mem_regionIds {content id : Bytes} :
    id ∈ hook.regionIds session path content ↔ hook.isSealed path = false ∧
      ∃ spans, parse session.region path (parserFor path) content = .ok spans ∧
        ∃ body, (id, body) ∈ bodies content spans ∧
          (decryptBody session.region path id body).isSome := by
  unfold LayerBHook.regionIds
  cases hsealed : hook.isSealed path with
  | true => simp
  | false =>
    cases hparse : parse session.region path (parserFor path) content with
    | error e => simp
    | ok spans =>
      simp only [Bool.false_eq_true, if_false, List.mem_map, List.mem_filter, decide_eq_true_eq,
        Except.ok.injEq, exists_eq_left', true_and]
      constructor
      · rintro ⟨span, ⟨hspan, hkind⟩, rfl⟩
        refine ⟨span.body.slice content, List.mem_map.mpr ⟨span, hspan, rfl⟩, ?_⟩
        rw [kind_of_parse hparse span hspan] at hkind
        exact classifyBody_eq_ciphertext.mp hkind
      · rintro ⟨body, hbody, hopens⟩
        obtain ⟨span, hspan, heq⟩ := List.mem_map.mp hbody
        cases heq
        refine ⟨span, ⟨hspan, ?_⟩, rfl⟩
        rw [kind_of_parse hparse span hspan]
        exact classifyBody_eq_ciphertext.mpr hopens

/-! ### Regions at another path -/

variable {path' : String}

/-- A body that opens at one path is ciphertext at no other. -/
theorem decryptBody_elsewhere {cipher : RegionCipher} (hideal : cipher.Ideal) (hne : path ≠ path')
    {id body : Bytes} (hopens : (decryptBody cipher path id body).isSome) :
    decryptBody cipher path' id body = none := by
  unfold decryptBody at hopens ⊢
  cases hdecode : Base64.decode body with
  | none => rfl
  | some blob =>
    rw [hdecode] at hopens
    refine Option.not_isSome_iff_eq_none.mp fun hother => hne ?_
    exact hideal.bound path path' id blob hopens hother

theorem held_elsewhere {cipher : RegionCipher} (hideal : cipher.Ideal) (hne : path ≠ path')
    {id body : Bytes} (hopens : (decryptBody cipher path id body).isSome) :
    held cipher path' id body = body := by
  rw [held, decryptBody_elsewhere hideal hne hopens, Option.getD_none]

/-- What a body opens to is not the body. -/
theorem ne_of_decryptBody {cipher : RegionCipher} (hideal : cipher.Ideal) {id body plain : Bytes}
    (hopens : decryptBody cipher path id body = some plain) : body ≠ plain := by
  rintro rfl
  obtain ⟨blob, hdecode, hdecrypt⟩ := Option.bind_eq_some_iff.mp hopens
  have hlonger := hideal.longer path id blob body hdecrypt
  have hlength := Base64.length_decode hdecode
  omega

/-- A file parses into the same regions at every path with its parser. -/
theorem bodies_elsewhere {cipher : RegionCipher} {parser : RegionParser} {content : Bytes}
    {spans : List RegionSpan} (hparse : parse cipher path parser content = .ok spans)
    (path' : String) : ∃ spans', parse cipher path' parser content = .ok spans' ∧
      bodies content spans' = bodies content spans := by
  obtain ⟨hutf8, rfl⟩ | ⟨hutf8, regions, tail, rfl, hscans, rfl⟩ := parse_eq_ok hparse
  · exact ⟨[], by rw [parse, if_neg (by simp [hutf8])], rfl⟩
  · exact ⟨_, parse_weave hutf8 hscans, by rw [bodies_spansAt, bodies_spansAt]⟩

/-- **A sealed region read at another path is its ciphertext.** -/
theorem revealRegion_moved {content id body : Bytes} {spans : List RegionSpan}
    (hideal : session.region.Ideal) (hne : path ≠ path')
    (hparser : parserFor path' = parserFor path)
    (hparse : parse session.region path (parserFor path) content = .ok spans)
    (hbody : (id, body) ∈ bodies content spans)
    (hopens : (decryptBody session.region path id body).isSome) :
    revealRegion session path' content id = some body := by
  obtain ⟨spans', hparse', hsame⟩ := bodies_elsewhere hparse path'
  have hnodup : ((bodies content spans).map Prod.fst).Nodup := bodies_nodup hparse
  rw [revealRegion_eq (hparser ▸ hparse'), hsame, find_of_nodup hnodup hbody, Option.map_some,
    held_elsewhere hideal hne hopens]

/-- What the write path makes, at another path, of a body that opens. -/
theorem NewBody.resealed {cipher : RegionCipher} (hideal : cipher.Ideal) (hne : path ≠ path')
    {prior : Option Bytes} {prevSpans : List RegionSpan} {x : Region × Option Bytes}
    (h : NewBody cipher path' prior prevSpans x)
    (hopens : (decryptBody cipher path x.1.id x.1.body).isSome) :
    decryptBody cipher path' x.1.id (reseat x).body = some x.1.body := by
  obtain ⟨hhere, -⟩ | ⟨hplaceholder, -⟩ | ⟨-, -, blob, hencrypt, hnew⟩ := h.cases
  · rw [decryptBody_elsewhere hideal hne hopens] at hhere
    cases hhere
  · rw [hplaceholder, placeholder_plaintext] at hopens
    cases hopens
  · rw [hnew, decryptBody_encode hencrypt]

/-- **A sealed region that is committed at another path is sealed once more**: there it holds its
old ciphertext. -/
theorem revealRegion_resealed {content id body out : Bytes} {spans : List RegionSpan}
    {prior : Option Bytes} (hideal : session.region.Ideal) (hne : path ≠ path')
    (hparser : parserFor path' = parserFor path)
    (hparse : parse session.region path (parserFor path) content = .ok spans)
    (hopens : ∀ r ∈ bodies content spans, (decryptBody session.region path r.1 r.2).isSome)
    (hbody : (id, body) ∈ bodies content spans)
    (hseal : sealFile session.region path' (parserFor path') prior content = .ok out) :
    revealRegion session path' out id = some body := by
  obtain ⟨-, rfl⟩ | ⟨hutf8, regions, tail, rfl, hscans, rfl⟩ := parse_eq_ok hparse
  · cases hbody
  rw [bodies_spansAt] at hopens hbody
  rw [hparser, sealFile_of_parse (parse_weave hutf8 hscans), applyWritePath_weave] at hseal
  obtain ⟨l, rfl, hnew, rfl⟩ := hseal
  have hopens : ∀ x ∈ l, (decryptBody session.region path x.1.id x.1.body).isSome := fun x hx =>
    hopens _ (List.mem_map_of_mem (List.mem_map_of_mem hx))
  have hresealed := fun x hx => (hnew x hx).resealed hideal hne (hopens x hx)
  have hvalid := fun r hr => (hscans.valid r hr).1
  have hsame := sameAround_reseat l
  have hbefore : AllInert (l.map Prod.fst) := by
    refine allInert_of_decrypt session.region path hvalid fun r hr => ?_
    obtain ⟨x, hx, rfl⟩ := List.mem_map.mp hr
    exact Option.isSome_iff_exists.mp (hopens x hx)
  have hafter : AllInert (l.map reseat) := by
    refine allInert_of_decrypt session.region path' ?_ fun r hr => ?_
    · intro r hr
      obtain ⟨s, hs, -, hid⟩ := sameAround_of_mem hsame r hr
      exact hid ▸ hvalid s hs
    · obtain ⟨x, hx, rfl⟩ := List.mem_map.mp hr
      exact ⟨_, hresealed x hx⟩
  have hutf8' : isUtf8 (weave (l.map reseat) tail) = true := by
    refine isUtf8_same hsame hvalid hutf8 fun r hr => ?_
    obtain ⟨x, hx, rfl⟩ := List.mem_map.mp hr
    obtain ⟨bytes, hbytes⟩ := decode_of_decryptBody (hresealed x hx)
    exact isUtf8_of_decode hbytes
  have hscans' := scans_same hsame hscans hafter
    (openFlags_inert (parserFor path) hsame hbefore hafter tail)
  have hparse' : parse session.region path' (parserFor path) (weave (l.map reseat) tail) = _ :=
    parse_weave hutf8' hscans'
  obtain ⟨r, hr, heq⟩ := List.mem_map.mp hbody
  obtain ⟨x, hx, rfl⟩ := List.mem_map.mp hr
  cases heq
  have hmem : ((reseat x).id, (reseat x).body) ∈ (l.map reseat).map fun r => (r.id, r.body) :=
    List.mem_map_of_mem (List.mem_map_of_mem hx)
  have hnodup := bodies_nodup hparse'
  rw [bodies_spansAt] at hnodup
  rw [← hparser] at hparse'
  have hfind := find_of_nodup hnodup hmem
  rw [revealRegion_eq hparse', bodies_spansAt]
  rw [show (reseat x).id = x.1.id from rfl] at hfind
  rw [hfind, Option.map_some, held, hresealed x hx, Option.getD_some]

end

end Softfig.LayerB
