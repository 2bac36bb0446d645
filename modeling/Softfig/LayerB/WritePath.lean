import Softfig.LayerB.Substitution

/-!
What the write path puts in the place of each body.

- `NewBody.cases`: a new body is the old one, what the prior region of its id stores, or
  fresh ciphertext;
- `NewBody.sealed_iff`: it decrypts to what it must hold exactly where a placeholder
  stands for ciphertext;
- `applyWritePath_weave`: the write path replaces bodies and nothing else.
-/

namespace Softfig.LayerB

open Softfig.Store (Bytes)
open Softfig.Lib

section Session

variable (cipher : RegionCipher) (path : String)

/-- What a stored body decrypts to. -/
def decryptBody (id body : Bytes) : Option Bytes :=
  (Base64.decode body).bind (cipher.decrypt path id)

/-- What a region holds: what its ciphertext decrypts to, or else its body itself. -/
def held (id body : Bytes) : Bytes := (decryptBody cipher path id body).getD body

variable {cipher path}

theorem decode_placeholder : Base64.decode encryptedPlaceholder = none := by decide

theorem classifyBody_eq_ciphertext {body id : Bytes} :
    classifyBody cipher path body id = .ciphertext ↔ (decryptBody cipher path id body).isSome := by
  unfold classifyBody decryptBody
  split
  · rename_i h
    subst h
    rw [decode_placeholder]
    simp
  · cases Base64.decode body with
    | none => simp
    | some bytes => cases hdecrypt : cipher.decrypt path id bytes <;> simp [hdecrypt]

theorem classifyBody_eq_plaintext {body id : Bytes} :
    classifyBody cipher path body id = .plaintext ↔ decryptBody cipher path id body = none := by
  rw [← Option.not_isSome_iff_eq_none, ← classifyBody_eq_ciphertext]
  cases classifyBody cipher path body id <;> simp

theorem decryptBody_encode {id body blob : Bytes} (h : cipher.encrypt path id body = some blob) :
    decryptBody cipher path id (Base64.encode blob) = some body := by
  rw [decryptBody, Base64.decode_encode, Option.bind_some]
  exact cipher.decrypt_encrypt path id body blob h

/-! ### Bodies of ciphertext -/

instance (b : UInt8) : Decidable (Base64.IsChar b) := inferInstanceAs (Decidable (_ ∨ _))

theorem isChar_inert {b : UInt8} (h : Base64.IsChar b) : Neutral b ∧ b ≠ less ∧ b < 0x80 := by
  refine ⟨⟨?_, ?_, ?_, ?_, ?_, ?_⟩, ?_, ?_⟩
  case refine_8 =>
    rw [UInt8.lt_iff_toNat_lt]
    have hpad : Base64.pad.toNat = 61 := rfl
    have hbound : (0x80 : UInt8).toNat = 128 := rfl
    obtain h | rfl := h
    · unfold Base64.value at h
      dsimp only at h
      split_ifs at h <;> first | omega | cases h
    · omega
  all_goals
    rintro rfl
    exact absurd h (by decide)

theorem inert_of_decode {body bytes : Bytes} (h : Base64.decode body = some bytes) : Inert body :=
  fun b hb =>
    have hchar := isChar_inert (Base64.isChar_of_decode h b hb)
    ⟨hchar.1, hchar.2.1⟩

theorem isUtf8_of_decode {body bytes : Bytes} (h : Base64.decode body = some bytes) :
    isUtf8 body = true :=
  isUtf8_of_ascii fun b hb => (isChar_inert (Base64.isChar_of_decode h b hb)).2.2

theorem decode_of_decryptBody {id body plain : Bytes}
    (h : decryptBody cipher path id body = some plain) : ∃ bytes, Base64.decode body = some bytes := by
  obtain ⟨bytes, hbytes, -⟩ := Option.bind_eq_some_iff.mp h
  exact ⟨bytes, hbytes⟩

theorem Inert.closed {body : Bytes} (h : Inert body) : Closed body :=
  fun _ => h.absent_closes _

/-! ### Files that parse -/

/-- A file that parses is UTF-8 and a weave, or has no regions. -/
theorem parse_eq_ok {parser : RegionParser} {content : Bytes} {spans : List RegionSpan}
    (h : parse cipher path parser content = .ok spans) :
    (isUtf8 content = false ∧ spans = []) ∨
      (isUtf8 content = true ∧ ∃ regions tail, content = weave regions tail ∧
        Scans parser.start [] regions tail ∧ spans = spansAt cipher path 0 regions) := by
  unfold parse at h
  split at h
  · rename_i hutf8
    exact Or.inr ⟨hutf8, weave_of_scanRegions h⟩
  · rename_i hutf8
    cases h
    exact Or.inl ⟨by simpa using hutf8, rfl⟩

theorem parse_weave {parser : RegionParser} {regions : List Region} {tail : Bytes}
    (hutf8 : isUtf8 (weave regions tail) = true) (h : Scans parser.start [] regions tail) :
    parse cipher path parser (weave regions tail) = .ok (spansAt cipher path 0 regions) := by
  rw [parse, if_pos hutf8, scanRegions_weave h]

theorem Scans.valid {s : ScanState} {seen : List Bytes} {regions : List Region} {tail : Bytes}
    (h : Scans s seen regions tail) : ∀ r ∈ regions, ValidId r.id ∧ Closed r.body := by
  induction regions generalizing s seen with
  | nil =>
    intro r hr
    cases hr
  | cons r more ih =>
    intro r' hr'
    obtain rfl | hmem := List.mem_cons.mp hr'
    · exact ⟨h.1.valid, fun rest => absent_closes_settled h.1.unclosed⟩
    · exact ih h.2 r' hmem

theorem Scans.nodup {s : ScanState} {seen : List Bytes} {regions : List Region} {tail : Bytes}
    (h : Scans s seen regions tail) :
    (regions.map Region.id).Nodup ∧ ∀ r ∈ regions, r.id ∉ seen := by
  induction regions generalizing s seen with
  | nil => exact ⟨List.nodup_nil, fun r hr => absurd hr List.not_mem_nil⟩
  | cons r more ih =>
    obtain ⟨hnodup, hfresh⟩ := ih h.2
    constructor
    · rw [List.map_cons, List.nodup_cons]
      refine ⟨?_, hnodup⟩
      intro hmem
      obtain ⟨r', hr', hid⟩ := List.mem_map.mp hmem
      exact hfresh r' hr' (hid ▸ List.mem_cons_self)
    · intro r' hr'
      obtain rfl | hmem := List.mem_cons.mp hr'
      · exact h.1.fresh
      · exact fun hseen => hfresh r' hmem (List.mem_cons_of_mem _ hseen)

/-! ### The regions of a file -/

/-- The id and the body of each region. -/
def bodies (content : Bytes) (spans : List RegionSpan) : List (Bytes × Bytes) :=
  spans.map fun span => (span.id, span.body.slice content)

variable (cipher path) in
theorem bodies_weave (pre : Bytes) (regions : List Region) (tail : Bytes) :
    bodies (pre ++ weave regions tail) (spansAt cipher path pre.length regions) =
      regions.map fun r => (r.id, r.body) := by
  induction regions generalizing pre with
  | nil => rfl
  | cons r more ih =>
    have hslice := slice_append (pre ++ (r.gap ++ openTag r.id)) r.body
      (closeMark ++ weave more tail)
    have hrest := ih (pre ++ (r.gap ++ (openTag r.id ++ (r.body ++ closeMark))))
    simp only [bodies, List.append_assoc, List.length_append, Nat.add_assoc] at hslice hrest
    simp only [bodies, spansAt, weave, List.map_cons, List.length_append, Nat.add_assoc, hslice,
      hrest]

theorem mem_spansAt {pos : Nat} {regions : List Region} {span : RegionSpan}
    (h : span ∈ spansAt cipher path pos regions) :
    ∃ r ∈ regions, span.id = r.id ∧ span.kind = classifyBody cipher path r.body r.id := by
  induction regions generalizing pos with
  | nil => cases h
  | cons r more ih =>
    obtain rfl | hmem := List.mem_cons.mp h
    · exact ⟨r, List.mem_cons_self, rfl, rfl⟩
    · obtain ⟨r', hr', hspan⟩ := ih hmem
      exact ⟨r', List.mem_cons_of_mem r hr', hspan⟩

/-- What the prior region of an id stores is UTF-8 and holds no closing tag. -/
theorem priorBody_closed {parser : RegionParser} {prior : Option Bytes} {id stored : Bytes}
    (h : priorBody prior (priorSpans cipher path parser prior) id = some stored) :
    isUtf8 stored = true ∧ Closed stored := by
  obtain ⟨content, rfl, h⟩ := Option.bind_eq_some_iff.mp h
  obtain ⟨span, hfind, rfl⟩ := Option.map_eq_some_iff.mp h
  have hmem := List.mem_of_find?_eq_some hfind
  rw [priorSpans] at hmem
  cases hparse : parse cipher path parser content with
  | error e => simp [hparse, Except.toOption] at hmem
  | ok spans =>
    simp only [hparse, Except.toOption, Option.getD_some] at hmem
    obtain ⟨-, rfl⟩ | ⟨hutf8, regions, tail, rfl, hscans, rfl⟩ := parse_eq_ok hparse
    · cases hmem
    · have hbody := bodies_weave cipher path [] regions tail
      have hin : (span.id, span.body.slice (weave regions tail)) ∈
          regions.map fun r => (r.id, r.body) := by
        rw [← hbody]
        exact List.mem_map.mpr ⟨span, hmem, rfl⟩
      obtain ⟨r, hr, heq⟩ := List.mem_map.mp hin
      have hstored : r.body = span.body.slice (weave regions tail) := congrArg Prod.snd heq
      rw [← hstored]
      have hvalid := fun r hr => (hscans.valid r hr).1
      exact ⟨(((isUtf8_weave hvalid tail).mp hutf8).1 r hr).2, (hscans.valid r hr).2⟩

/-! ### The bodies of the write path -/

section Write

variable (cipher path)

/-- What the region of an id must hold once the body is written: what it holds now, or what
the prior region held for a placeholder. -/
def expected (prior : Option Bytes) (spans : List RegionSpan) (id body : Bytes) : Option Bytes :=
  if body = encryptedPlaceholder then (priorBody prior spans id).map (held cipher path id)
  else some (held cipher path id body)

/-- The placeholder of an id stands for ciphertext. -/
def PlaceholderSealed (prior : Option Bytes) (spans : List RegionSpan) (id body : Bytes) : Prop :=
  body = encryptedPlaceholder →
    ∀ stored, priorBody prior spans id = some stored → (decryptBody cipher path id stored).isSome

/-- The body the write path leaves in a region, none where it changes nothing. -/
def NewBody (prior : Option Bytes) (spans : List RegionSpan) (x : Region × Option Bytes) : Prop :=
  match classifyBody cipher path x.1.body x.1.id with
  | .ciphertext => x.2 = none
  | .plaintext => ∃ body, x.2 = some body ∧
      sealBody cipher path prior spans x.1.id x.1.body = .ok body

variable {cipher path} {prior : Option Bytes} {prevSpans : List RegionSpan}

theorem sealBody_eq_ok {id body new : Bytes} :
    sealBody cipher path prior prevSpans id body = .ok new ↔
      (body = encryptedPlaceholder ∧ priorBody prior prevSpans id = some new) ∨
        (body ≠ encryptedPlaceholder ∧ ∃ blob, cipher.encrypt path id body = some blob ∧
          Base64.encode blob = new) := by
  unfold sealBody
  by_cases hbody : body = encryptedPlaceholder
  · rw [if_pos hbody]
    cases priorBody prior prevSpans id <;> simp [hbody]
  · rw [if_neg hbody]
    cases cipher.encrypt path id body <;> simp [hbody]

theorem placeholder_plaintext (id : Bytes) :
    decryptBody cipher path id encryptedPlaceholder = none := by
  rw [decryptBody, decode_placeholder]
  rfl

/-- What the new body of a region can be: itself, what the prior region stores, or fresh
ciphertext. -/
theorem NewBody.cases {x : Region × Option Bytes} (h : NewBody cipher path prior prevSpans x) :
    ((decryptBody cipher path x.1.id x.1.body).isSome ∧ (reseat x).body = x.1.body) ∨
      (x.1.body = encryptedPlaceholder ∧
        priorBody prior prevSpans x.1.id = some (reseat x).body) ∨
      (x.1.body ≠ encryptedPlaceholder ∧ decryptBody cipher path x.1.id x.1.body = none ∧
        ∃ blob, cipher.encrypt path x.1.id x.1.body = some blob ∧
          (reseat x).body = Base64.encode blob) := by
  obtain ⟨r, new⟩ := x
  unfold NewBody at h
  dsimp only at h
  cases hkind : classifyBody cipher path r.body r.id with
  | ciphertext =>
    rw [hkind] at h
    exact Or.inl ⟨classifyBody_eq_ciphertext.mp hkind, congrArg (Option.getD · r.body) h⟩
  | plaintext =>
    rw [hkind] at h
    obtain ⟨body, rfl, hseal⟩ := h
    obtain ⟨hbody, hprior⟩ | ⟨hbody, blob, hencrypt, hnew⟩ := sealBody_eq_ok.mp hseal
    · exact Or.inr (Or.inl ⟨hbody, hprior⟩)
    · exact Or.inr (Or.inr ⟨hbody, classifyBody_eq_plaintext.mp hkind, blob, hencrypt, hnew.symm⟩)

/-- A new body is the stored one its placeholder stands for, or ciphertext of the old one. -/
theorem NewBody.stores {x : Region × Option Bytes} (h : NewBody cipher path prior prevSpans x) :
    if x.1.body = encryptedPlaceholder then priorBody prior prevSpans x.1.id = some (reseat x).body
    else decryptBody cipher path x.1.id (reseat x).body = some (held cipher path x.1.id x.1.body) := by
  obtain ⟨hsome, hbody⟩ | ⟨hbody, hprior⟩ | ⟨hbody, hplain, blob, hencrypt, hnew⟩ := h.cases
  · obtain ⟨plain, hplain⟩ := Option.isSome_iff_exists.mp hsome
    rw [if_neg, hbody, held, hplain, Option.getD_some]
    intro heq
    rw [heq, placeholder_plaintext] at hplain
    cases hplain
  · rwa [if_pos hbody]
  · rw [if_neg hbody, hnew, decryptBody_encode hencrypt, held, hplain, Option.getD_none]

/-- **One region is sealed** exactly where its placeholder stands for ciphertext. -/
theorem NewBody.sealed_iff {x : Region × Option Bytes}
    (h : NewBody cipher path prior prevSpans x) :
    decryptBody cipher path x.1.id (reseat x).body =
        expected cipher path prior prevSpans x.1.id x.1.body ↔
      PlaceholderSealed cipher path prior prevSpans x.1.id x.1.body := by
  obtain ⟨hsome, hbody⟩ | ⟨hbody, hprior⟩ | ⟨hbody, hplain, blob, hencrypt, hnew⟩ := h.cases
  · have hne : x.1.body ≠ encryptedPlaceholder := by
      intro heq
      rw [heq, placeholder_plaintext] at hsome
      cases hsome
    obtain ⟨plain, hplain⟩ := Option.isSome_iff_exists.mp hsome
    rw [hbody, expected, if_neg hne, held, hplain]
    exact iff_of_true rfl fun heq => absurd heq hne
  · rw [expected, if_pos hbody, hprior, Option.map_some, held]
    constructor
    · intro hheld _ stored hstored
      rw [hprior] at hstored
      obtain rfl := Option.some.inj hstored
      rw [hheld]
      rfl
    · intro hsealed
      obtain ⟨plain, hplain⟩ := Option.isSome_iff_exists.mp (hsealed hbody _ hprior)
      rw [hplain]
      rfl
  · rw [hnew, decryptBody_encode hencrypt, expected, if_neg hbody, held, hplain]
    exact iff_of_true rfl fun heq => absurd heq hbody

theorem NewBody.decrypts {x : Region × Option Bytes} (h : NewBody cipher path prior prevSpans x)
    (hsealed : PlaceholderSealed cipher path prior prevSpans x.1.id x.1.body) :
    ∃ plain, decryptBody cipher path x.1.id (reseat x).body = some plain := by
  obtain ⟨hsome, hbody⟩ | ⟨hbody, hprior⟩ | ⟨-, -, blob, hencrypt, hnew⟩ := h.cases
  · rw [hbody]
    exact Option.isSome_iff_exists.mp hsome
  · exact Option.isSome_iff_exists.mp (hsealed hbody _ hprior)
  · rw [hnew]
    exact ⟨_, decryptBody_encode hencrypt⟩

/-- What the write path leaves in a region is UTF-8 and holds no closing tag. -/
theorem NewBody.closed {parser : RegionParser} {x : Region × Option Bytes}
    (h : NewBody cipher path prior (priorSpans cipher path parser prior) x) :
    isUtf8 (reseat x).body = true ∧ Closed (reseat x).body := by
  obtain ⟨hsome, hbody⟩ | ⟨-, hprior⟩ | ⟨-, -, blob, -, hnew⟩ := h.cases
  · obtain ⟨plain, hplain⟩ := Option.isSome_iff_exists.mp hsome
    obtain ⟨bytes, hbytes⟩ := decode_of_decryptBody hplain
    rw [hbody]
    exact ⟨isUtf8_of_decode hbytes, (inert_of_decode hbytes).closed⟩
  · exact priorBody_closed hprior
  · have hbytes := Base64.decode_encode blob
    rw [hnew]
    exact ⟨isUtf8_of_decode hbytes, (inert_of_decode hbytes).closed⟩

theorem writeSubstitutions_spansAt (pre : Bytes) (regions : List Region) (tail : Bytes)
    {subs : List (ByteRange × Bytes)} :
    writeSubstitutions cipher path (pre ++ weave regions tail) prior prevSpans
        (spansAt cipher path pre.length regions) = .ok subs ↔
      ∃ l : List (Region × Option Bytes), l.map Prod.fst = regions ∧
        (∀ x ∈ l, NewBody cipher path prior prevSpans x) ∧ subs = subsAt pre.length l := by
  induction regions generalizing pre subs with
  | nil =>
    constructor
    · intro h
      cases h
      exact ⟨[], rfl, fun x hx => absurd hx List.not_mem_nil, rfl⟩
    · rintro ⟨l, hl, -, rfl⟩
      rw [List.map_eq_nil_iff] at hl
      subst hl
      rfl
  | cons r more ih =>
    have hslice := slice_append (pre ++ (r.gap ++ openTag r.id)) r.body
      (closeMark ++ weave more tail)
    have hrest := fun subs => @ih (pre ++ (r.gap ++ (openTag r.id ++ (r.body ++ closeMark)))) subs
    simp only [List.append_assoc, List.length_append, ← Nat.add_assoc] at hslice hrest
    rw [weave, spansAt, writeSubstitutions]
    simp only [List.length_append, ← Nat.add_assoc, hslice]
    cases hkind : classifyBody cipher path r.body r.id with
    | ciphertext =>
      dsimp only
      rw [hrest]
      constructor
      · rintro ⟨l, rfl, hnew, rfl⟩
        refine ⟨(r, none) :: l, rfl, ?_, ?_⟩
        · simp only [List.mem_cons, forall_eq_or_imp]
          refine ⟨?_, hnew⟩
          simp [NewBody, hkind]
        · simp [subsAt, ← Nat.add_assoc]
      · rintro ⟨l, hl, hnew, rfl⟩
        obtain ⟨x, l, rfl, rfl, rfl⟩ := List.map_eq_cons_iff.mp hl
        simp only [List.mem_cons, forall_eq_or_imp] at hnew
        refine ⟨l, rfl, hnew.2, ?_⟩
        obtain ⟨r, new⟩ := x
        have hnone : new = none := by simpa [NewBody, hkind] using hnew.1
        subst hnone
        simp [subsAt, ← Nat.add_assoc]
    | plaintext =>
      dsimp only
      rw [bind_ok_iff]
      constructor
      · rintro ⟨body, hbody, h⟩
        obtain ⟨later, hlater, hsubs⟩ := bind_ok_iff.mp h
        obtain ⟨l, rfl, hnew, rfl⟩ := (hrest _).mp hlater
        cases hsubs
        refine ⟨(r, some body) :: l, rfl, ?_, ?_⟩
        · simp only [List.mem_cons, forall_eq_or_imp]
          refine ⟨?_, hnew⟩
          simp [NewBody, hkind, hbody]
        · simp [subsAt, ← Nat.add_assoc]
      · rintro ⟨l, hl, hnew, rfl⟩
        obtain ⟨x, l, rfl, rfl, rfl⟩ := List.map_eq_cons_iff.mp hl
        simp only [List.mem_cons, forall_eq_or_imp] at hnew
        obtain ⟨r, new⟩ := x
        obtain ⟨body, rfl, hbody⟩ : ∃ body, new = some body ∧
            sealBody cipher path prior prevSpans r.id r.body = .ok body := by
          simpa [NewBody, hkind] using hnew.1
        refine ⟨body, hbody, bind_ok_iff.mpr ⟨_, (hrest _).mpr ⟨l, rfl, hnew.2, rfl⟩, ?_⟩⟩
        simp [subsAt, ← Nat.add_assoc, pure, Except.pure]

/-- **The write path replaces bodies and nothing else.** -/
theorem applyWritePath_weave (regions : List Region) (tail : Bytes) {out : Bytes} :
    applyWritePath cipher path (weave regions tail) (spansAt cipher path 0 regions) prior
        prevSpans = .ok out ↔
      ∃ l : List (Region × Option Bytes), l.map Prod.fst = regions ∧
        (∀ x ∈ l, NewBody cipher path prior prevSpans x) ∧ out = weave (l.map reseat) tail := by
  have hsubs := fun subs =>
    @writeSubstitutions_spansAt cipher path prior prevSpans [] regions tail subs
  simp only [List.nil_append, List.length_nil] at hsubs
  rw [applyWritePath, bind_ok_iff]
  constructor
  · rintro ⟨subs, h, hout⟩
    obtain ⟨l, rfl, hnew, rfl⟩ := (hsubs subs).mp h
    cases hout
    exact ⟨l, rfl, hnew, withSubstitutions_subsAt l tail⟩
  · rintro ⟨l, rfl, hnew, rfl⟩
    refine ⟨_, (hsubs _).mpr ⟨l, rfl, hnew, rfl⟩, ?_⟩
    rw [withSubstitutions_subsAt]
    rfl

/-- What a commit stores is what the write path makes of the regions. -/
theorem sealFile_of_parse {parser : RegionParser} {content : Bytes} {spans : List RegionSpan}
    (h : parse cipher path parser content = .ok spans) :
    sealFile cipher path parser prior content =
      applyWritePath cipher path content spans prior (priorSpans cipher path parser prior) := by
  rw [sealFile, h]
  cases spans <;> rfl

/-- The content without what its regions hold. -/
def cutBodies (content : Bytes) (spans : List RegionSpan) : Bytes :=
  withSubstitutions content (spans.map fun span => (span.body, []))

theorem cutBodies_weave (regions : List Region) (tail : Bytes) :
    cutBodies (weave regions tail) (spansAt cipher path 0 regions) =
      weave (regions.map fun r => { r with body := [] }) tail :=
  withSubstitutions_const cipher path regions tail []

end Write

end Session

end Softfig.LayerB
