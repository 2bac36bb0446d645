import Softfig.Doc.Refs

/-!
What a rewrite keeps, and exactly when it points the references of a moved target at the new one.

A token that is read has no white space at its ends, no structural character, and closes the code
spans it opens. A new target of which any of this fails is written and never read again, and the
references that named the old one dangle.

- `parseRefs_token`: what every token that is read is like;
- `repointed_of_unnamed`, `repointed_of_nameable`: when a rewrite does what an archive needs;
- `rewriteTo_repoints_iff`: and that it does so only then.
-/

namespace Softfig.Doc.Refs

open Softfig.Lib Softfig.Lib.Slicing
open Softfig.Queue (isWhitespace trimStart trim)
open Softfig.LayerB (settleRun)

/-! ### Tokens -/

/-- What is trimmed off is white space. -/
theorem exists_trim (l : Text) : ∃ before after, l = before ++ trim l ++ after ∧
    (∀ ch ∈ before, isWhitespace ch = true) ∧ ∀ ch ∈ after, isWhitespace ch = true := by
  have hback : trimStart l =
      trim l ++ ((trimStart l).reverse.takeWhile isWhitespace).reverse := by
    have hsplit := List.takeWhile_append_dropWhile (p := isWhitespace) (l := (trimStart l).reverse)
    have hreverse := congrArg List.reverse hsplit
    rw [List.reverse_append, List.reverse_reverse] at hreverse
    exact hreverse.symm
  refine ⟨l.takeWhile isWhitespace, ((trimStart l).reverse.takeWhile isWhitespace).reverse, ?_, ?_,
    ?_⟩
  · rw [List.append_assoc, ← hback]
    exact List.takeWhile_append_dropWhile.symm
  · intro ch hch
    exact List.mem_takeWhile_imp hch
  · intro ch hch
    exact List.mem_takeWhile_imp (List.mem_reverse.mp hch)

theorem run_blank {gap : Text} (h : ∀ ch ∈ gap, isWhitespace ch = true) (s : Option Nat × Nat) :
    settleRun (codeSpans.run s gap).1 (codeSpans.run s gap).2 = settleRun s.1 s.2 := by
  induction gap generalizing s with
  | nil => rfl
  | cons ch gap ih =>
    obtain ⟨hch, hgap⟩ := List.forall_mem_cons.mp h
    have hplain : ch ≠ '`' := by
      rintro rfl
      revert hch
      decide
    have hstep : codeSpans.step s ch = (settleRun s.1 s.2, 0) := if_neg hplain
    show settleRun (codeSpans.run (codeSpans.step s ch) gap).1
      (codeSpans.run (codeSpans.step s ch) gap).2 = _
    rw [ih hgap, hstep]
    rfl

theorem run_blank_outside {gap : Text} (h : ∀ ch ∈ gap, isWhitespace ch = true) :
    codeSpans.run codeSpans.outside gap = codeSpans.outside := by
  induction gap with
  | nil => rfl
  | cons ch gap ih =>
    obtain ⟨hch, hgap⟩ := List.forall_mem_cons.mp h
    have hplain : ch ≠ '`' := by
      rintro rfl
      revert hch
      decide
    have hstep : codeSpans.step codeSpans.outside ch = codeSpans.outside := if_neg hplain
    show codeSpans.run (codeSpans.step codeSpans.outside ch) gap = _
    rw [hstep, ih hgap]

theorem closesSpans_trim {inner : Text} (h : closesSpans inner = true) :
    closesSpans (trim inner) = true := by
  obtain ⟨before, after, hinner, hbefore, hafter⟩ := exists_trim inner
  have hrun : codeSpans.run codeSpans.outside inner =
      codeSpans.run (codeSpans.run codeSpans.outside (trim inner)) after := by
    conv_lhs => rw [hinner]
    rw [Brackets.Marker.run, List.foldl_append, List.foldl_append]
    exact congrArg (fun s => codeSpans.run (codeSpans.run s (trim inner)) after)
      (run_blank_outside hbefore)
  have hlive (s : Option Nat × Nat) :
      codeSpans.live s brackets.closing = (settleRun s.1 s.2).isNone := rfl
  rw [closesSpans, hrun, hlive, run_blank hafter] at h
  exact h

theorem token?_eq_some {p : Piece Char} {token : Text} :
    token? p = some token ↔
      ∃ inner, p = .link inner ∧ validToken (trim inner) = true ∧ trim inner = token := by
  cases p with
  | symbol ch => simp [token?, Piece.inner?]
  | link inner =>
    simp only [token?, Piece.inner?, Option.bind_some, Option.ite_none_right_eq_some,
      Option.some.injEq, Piece.link.injEq, exists_eq_left']

/-- **A token that is read** is trimmed and valid, and closes its code spans. -/
theorem parseRefs_token {content token : Text} (h : token ∈ parseRefs content) :
    trim token = token ∧ validToken token = true ∧ closesSpans token = true := by
  obtain ⟨p, hp, htoken⟩ := List.mem_filterMap.mp h
  obtain ⟨inner, rfl, hvalid, rfl⟩ := token?_eq_some.mp htoken
  exact ⟨trim_trim inner, hvalid, closesSpans_trim (closesSpans_of_link hp)⟩

/-! ### What is written -/

section

variable {content source old new : Text}

/-- The contents of a link after its target has moved. -/
def retarget (source old new inner : Text) : Text :=
  if validToken (trim inner) = true ∧ candidate source (trim inner) = some old then new else inner

theorem names_eq_true {p : Piece Char} :
    names source old p = true ↔
      ∃ token, token? p = some token ∧ candidate source token = some old := by
  unfold names
  cases token? p with
  | none => simp
  | some token => simp

theorem names_link {inner : Text} :
    names source old (.link inner) = true ↔
      validToken (trim inner) = true ∧ candidate source (trim inner) = some old := by
  rw [names_eq_true]
  constructor
  · rintro ⟨token, htoken, hold⟩
    obtain ⟨inner', hinner, hvalid, rfl⟩ := token?_eq_some.mp htoken
    cases hinner
    exact ⟨hvalid, hold⟩
  · rintro ⟨hvalid, hold⟩
    exact ⟨_, token?_eq_some.mpr ⟨inner, rfl, hvalid, rfl⟩, hold⟩

theorem text_retarget (p : Piece Char) :
    (if names source old p = true then '[' :: '[' :: (new ++ [']', ']']) else brackets.text p) =
      brackets.text (p.map (retarget source old new)) := by
  cases p with
  | symbol ch => rfl
  | link inner =>
    rw [Piece.map, retarget]
    by_cases hnames : names source old (.link inner) = true
    · rw [if_pos hnames, if_pos (names_link.mp hnames)]
      rfl
    · rw [if_neg hnames, if_neg fun h => hnames (names_link.mpr h)]

/-- Some token names the old target. -/
theorem any_names_iff :
    (piecesOf content).any (names source old) = true ↔
      ∃ token ∈ parseRefs content, candidate source token = some old := by
  rw [List.any_eq_true]
  constructor
  · rintro ⟨p, hp, hnames⟩
    obtain ⟨token, htoken, hold⟩ := names_eq_true.mp hnames
    exact ⟨token, List.mem_filterMap.mpr ⟨p, hp, htoken⟩, hold⟩
  · rintro ⟨token, hmem, hold⟩
    obtain ⟨p, hp, htoken⟩ := List.mem_filterMap.mp hmem
    exact ⟨p, hp, names_eq_true.mpr ⟨token, htoken, hold⟩⟩

theorem rewriteTo_eq_none_iff :
    rewriteTo content source old new = none ↔
      ∀ token ∈ parseRefs content, candidate source token ≠ some old := by
  unfold rewriteTo
  split
  · rename_i hany
    obtain ⟨token, hmem, hold⟩ := any_names_iff.mp hany
    simp only [reduceCtorEq, false_iff, not_forall]
    exact ⟨token, hmem, not_not.mpr hold⟩
  · rename_i hany
    simp only [true_iff]
    intro token hmem hold
    exact hany (any_names_iff.mpr ⟨token, hmem, hold⟩)

/-- Rewritten or not, the document is written with its contents retargeted. -/
theorem rewritten_eq :
    rewritten content source old new =
      brackets.write ((piecesOf content).map (Piece.map (retarget source old new))) := by
  have hwrite : ((piecesOf content).flatMap fun p =>
      if names source old p = true then '[' :: '[' :: (new ++ [']', ']']) else brackets.text p) =
        brackets.write ((piecesOf content).map (Piece.map (retarget source old new))) := by
    simp only [text_retarget, Brackets.write, List.flatMap_map]
  rw [rewritten, rewriteTo, hwrite]
  split
  · rfl
  · rename_i hany
    have hsame : (piecesOf content).map (Piece.map (retarget source old new)) =
        piecesOf content := by
      conv_rhs => rw [← List.map_id (piecesOf content)]
      apply List.map_congr_left
      intro p hp
      cases p with
      | symbol ch => rfl
      | link inner =>
        have hother : ¬names source old (.link inner) = true := fun h =>
          hany (List.any_eq_true.mpr ⟨_, hp, h⟩)
        rw [Piece.map, retarget, if_neg fun h => hother (names_link.mpr h)]
        rfl
    rw [hsame, write_piecesOf]
    rfl

/-- All but the rewritten tokens is the same, character by character. -/
theorem exists_parts :
    ∃ parts : List (Piece Char), content = brackets.write parts ∧
      rewritten content source old new = brackets.write (parts.map (Piece.map fun _ => new)) ∧
      ∀ inner, .link inner ∈ parts → candidate source (trim inner) = some old := by
  let part (p : Piece Char) : List (Piece Char) :=
    if names source old p = true then [p] else (brackets.text p).map .symbol
  have hwrite (g : Piece Char → List (Piece Char)) :
      brackets.write ((piecesOf content).flatMap g) =
        (piecesOf content).flatMap fun p => brackets.write (g p) := List.flatMap_assoc
  refine ⟨(piecesOf content).flatMap part, ?_, ?_, ?_⟩
  · conv_lhs => rw [← write_piecesOf content]
    rw [hwrite, Brackets.write]
    congr 1
    funext p
    by_cases hnames : names source old p = true
    · rw [show part p = [p] from if_pos hnames, Brackets.write_cons, Brackets.write_nil,
        List.append_nil]
    · rw [show part p = (brackets.text p).map .symbol from if_neg hnames,
        Brackets.write_map_symbol]
  · rw [rewritten_eq, List.map_flatMap, hwrite, Brackets.write, List.flatMap_map]
    congr 1
    funext p
    rw [← text_retarget]
    by_cases hnames : names source old p = true
    · rw [show part p = [p] from if_pos hnames, if_pos hnames]
      cases p with
      | symbol ch => cases hnames
      | link inner => simp [Piece.map, Brackets.write, Brackets.text, brackets]
    · rw [show part p = (brackets.text p).map .symbol from if_neg hnames, if_neg hnames,
        List.map_map]
      exact (Brackets.write_map_symbol _).symm
  · intro inner hinner
    obtain ⟨p, -, hp⟩ := List.mem_flatMap.mp hinner
    by_cases hnames : names source old p = true
    · rw [show part p = [p] from if_pos hnames, List.mem_singleton] at hp
      subst hp
      exact (names_link.mp hnames).2
    · rw [show part p = (brackets.text p).map .symbol from if_neg hnames] at hp
      obtain ⟨ch, -, hch⟩ := List.mem_map.mp hp
      cases hch

/-! ### Exactly when -/

theorem rewritten_of_unnamed (h : ∀ token ∈ parseRefs content, candidate source token ≠ some old) :
    rewritten content source old new = content := by
  rw [rewritten, rewriteTo_eq_none_iff.mpr h]
  rfl

theorem repointed_of_unnamed
    (h : ∀ token ∈ parseRefs content, candidate source token ≠ some old) :
    Repointed content source old new := by
  have hsame : rewritten content source old new = content := rewritten_of_unnamed h
  refine ⟨rewriteTo_eq_none_iff, ?_, ?_, ?_, exists_parts, ?_⟩
  · rw [hsame]
    exact h
  · rw [hsame]
    conv_lhs => rw [← List.map_id (parseRefs content)]
    apply List.map_congr_left
    intro token hmem
    exact (if_neg (h token hmem)).symm
  · intro token hmem hold
    exact absurd hold (h token hmem)
  · rw [hsame, hsame]

/-- A target a token can hold is safe between brackets. -/
theorem Nameable.safe (h : Nameable source old new) : codeSpans.Safe brackets new := by
  have hplain : ∀ ch ∈ new, ch ∉ structural := by
    have hvalid := h.valid
    simp only [validToken, Bool.and_eq_true, List.all_eq_true, decide_eq_true_iff] at hvalid
    exact hvalid.2
  constructor
  · intro hmem
    exact hplain _ hmem (by decide)
  · intro hmem
    exact hplain _ hmem (by decide)
  · exact h.closed

theorem token?_retarget (h : Nameable source old new) (p : Piece Char) :
    token? (p.map (retarget source old new)) = (token? p).map (repoint source old new) := by
  cases p with
  | symbol ch => rfl
  | link inner =>
    by_cases hvalid : validToken (trim inner) = true
    · have htoken : token? (.link inner) = some (trim inner) :=
        token?_eq_some.mpr ⟨inner, rfl, hvalid, rfl⟩
      rw [Piece.map, retarget, htoken, Option.map_some, repoint]
      by_cases hold : candidate source (trim inner) = some old
      · rw [if_pos ⟨hvalid, hold⟩, if_pos hold]
        exact token?_eq_some.mpr ⟨new, rfl, h.trimmed.symm ▸ h.valid, h.trimmed⟩
      · rw [if_neg fun hboth => hold hboth.2, if_neg hold, htoken]
    · have htoken : token? (.link inner) = none := by
        simp only [token?, Piece.inner?, Option.bind_some, if_neg hvalid]
      rw [Piece.map, retarget, if_neg fun hboth => hvalid hboth.1, htoken]
      rfl

/-- **A target that a token can hold is pointed at**, by the tokens that named the old one. -/
theorem repointed_of_nameable (h : Nameable source old new) : Repointed content source old new := by
  have hsafe : ∀ inner, retarget source old new inner = inner ∨
      codeSpans.Safe brackets (retarget source old new inner) := by
    intro inner
    unfold retarget
    split
    · exact Or.inr h.safe
    · exact Or.inl rfl
  have htokens : parseRefs (rewritten content source old new) =
      (parseRefs content).map (repoint source old new) := by
    rw [parseRefs, rewritten_eq, pieces_rewritten hsafe, List.filterMap_map, parseRefs,
      List.map_filterMap]
    congr 1
    funext p
    exact token?_retarget h p
  have hgone : ∀ token ∈ parseRefs (rewritten content source old new),
      candidate source token ≠ some old := by
    intro token hmem
    rw [htokens] at hmem
    obtain ⟨token', -, rfl⟩ := List.mem_map.mp hmem
    unfold repoint
    split
    · rw [h.named]
      exact fun hsame => h.other (Option.some.inj hsame)
    · assumption
  exact ⟨rewriteTo_eq_none_iff, hgone, htokens, fun _ _ _ => h.named, exists_parts,
    rewritten_of_unnamed hgone⟩

/-- **A rewrite does what an archive needs exactly when** nothing names the old target, or the new
one is a target a token can hold. -/
theorem rewriteTo_repoints_iff (content source old new : Text) :
    Repointed content source old new ↔
      (∀ token ∈ parseRefs content, candidate source token ≠ some old) ∨
        Nameable source old new := by
  constructor
  · intro h
    by_cases hnamed : ∀ token ∈ parseRefs content, candidate source token ≠ some old
    · exact Or.inl hnamed
    · simp only [not_forall, not_not] at hnamed
      obtain ⟨token, hmem, hold⟩ := hnamed
      have hnew : new ∈ parseRefs (rewritten content source old new) := by
        rw [h.tokens]
        exact List.mem_map.mpr ⟨token, hmem, if_pos hold⟩
      obtain ⟨htrimmed, hvalid, hclosed⟩ := parseRefs_token hnew
      have hself := h.named token hmem hold
      refine Or.inr ⟨htrimmed, hvalid, hclosed, hself, ?_⟩
      intro hsame
      exact h.gone new hnew (hself.trans (congrArg some hsame))
  · rintro (hunnamed | hnameable)
    · exact repointed_of_unnamed hunnamed
    · exact repointed_of_nameable hnameable

example : rewriteTo "[[002-gpu]] [[003-keep]] `[[002-gpu]]`\n".toList "x/notes/001-a.md".toList
    "x/notes/002-gpu.md".toList "journal/archive/gpu/002-gpu.md".toList =
      some "[[journal/archive/gpu/002-gpu.md]] [[003-keep]] `[[002-gpu]]`\n".toList := by
  decide +kernel

/-- An archive folder with a bracket in its name: the link that is written is no link. -/
theorem rewriteTo_bracket :
    rewriteTo "see [[002-gpu]]\n".toList "notes/001-a.md".toList "notes/002-gpu.md".toList
        "journal/archive/gpu]/002-gpu.md".toList =
      some "see [[journal/archive/gpu]/002-gpu.md]]\n".toList ∧
    parseRefs "see [[journal/archive/gpu]/002-gpu.md]]\n".toList = [] ∧
    ¬Repointed "see [[002-gpu]]\n".toList "notes/001-a.md".toList "notes/002-gpu.md".toList
        "journal/archive/gpu]/002-gpu.md".toList := by
  refine ⟨by decide +kernel, by decide +kernel, ?_⟩
  intro h
  have htokens := h.tokens
  revert htokens
  decide +kernel

end

end Softfig.Doc.Refs
