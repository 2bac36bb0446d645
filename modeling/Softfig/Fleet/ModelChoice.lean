import Softfig.Lib.Except
import Softfig.Lib.Slicing
import Softfig.Doc.Managed

/-!
The `> Model:` grammar: what a spec, a declaration, a roster entry and a follow-up resolve to, and
how a choice is rendered.

A spec is words: a token that names a backend and a model, then pairs that set the variant. A
choice that names claude carries a model of that grammar and an effort of a closed set, one that
names opencode an id and a free variant, neither with a `#`.

- `parseModelSpec_cases`: what a spec is read as;
- `parseDeclaration_exact`: a declaration is its entries in order, or it is refused;
- `Source.meets_iff`: which choices are well formed and are read back from what they render as.
-/

namespace Softfig.Fleet

open Softfig.Lib Softfig.Lib.Slicing
open Softfig.Doc (Text)
open Softfig.Queue (isWhitespace trim)

/-! ### Choices -/

inductive Backend where
  | claude
  | opencode
  deriving DecidableEq

/-- A launch target: the model and the effort or variant are none where the backend decides. -/
structure ModelChoice where
  backend : Backend
  model : Option Text
  variant : Option Text
  deriving DecidableEq

def deepseekReasoning : Text := "deepseek/deepseek-v4-pro".toList

def deepseekFlash : Text := "deepseek/deepseek-flash".toList

namespace ModelChoice

def claudeOn (model effort : Option Text) : ModelChoice := ⟨.claude, model, effort⟩

/-- `opencode` on a model id. -/
def ofOpencode (model : Text) : ModelChoice := ⟨.opencode, some model, none⟩

def opencodeModel (c : ModelChoice) : Text := c.model.getD deepseekFlash

/-- `provider/model`, or `provider/model#variant`. -/
def opencodeModelRef (c : ModelChoice) : Text :=
  match c.variant with
  | some variant => c.opencodeModel ++ '#' :: variant
  | none => c.opencodeModel

/-- The same backend and model; the variant is free. -/
def matchesModel (c other : ModelChoice) : Bool :=
  c.backend = other.backend && c.model = other.model

/-- `render` of `member_verbs`, in the `> Model:` grammar by its comment. -/
def render (c : ModelChoice) : Text :=
  match c.backend with
  | .claude => "claude".toList
  | .opencode => c.opencodeModelRef

end ModelChoice

inductive ModelSpec where
  | auto
  | fixed (choice : ModelChoice)
  deriving DecidableEq

/-! ### The grammar -/

def claudeAliases : List Text :=
  ["opus".toList, "sonnet".toList, "haiku".toList, "fable".toList]

def claudeEfforts : List Text :=
  ["low".toList, "medium".toList, "high".toList, "xhigh".toList, "max".toList]

def oneMSuffix : Text := "[1m]".toList

/-- Why a spec is refused, with what the message names. -/
inductive SpecError where
  | empty
  | notPair (pair spec : Text)
  | noValue (key spec : Text)
  | hashInValue (key value spec : Text)
  | unknownKey (key spec : Text)
  | openEffort (effort spec : Text)
  | claudeEmpty
  | claudeNoStem (suffix : Text)
  | claudeSlash (suffix : Text)
  | claudeHash (suffix : Text)
  | claudeUnknown (suffix : Text)
  | autoVariant
  | hashSuffix (token : Text)
  | unknownModel (token : Text)
  deriving DecidableEq

/-- `split_whitespace` -/
def words (s : Text) : List Text := (s.splitOnP isWhitespace).filter fun w => !w.isEmpty

def stripPrefix (pre s : Text) : Option Text :=
  if pre <+: s then some (s.drop pre.length) else none

def stripSuffix (suf s : Text) : Option Text :=
  if suf <:+ s then some (s.take (s.length - suf.length)) else none

def isIdChar (c : Char) : Bool := c.isLower || c.isDigit

/-- The characters after `claude-`, `hasChar` where the chunk that is read has one. -/
def fullChunks : Bool → Text → Bool
  | hasChar, [] => hasChar
  | hasChar, c :: rest =>
    if c = '-' then hasChar && fullChunks false rest
    else isIdChar c && fullChunks true rest

def isFullClaudeId (stem : Text) : Bool :=
  match stripPrefix "claude-".toList stem with
  | none => false
  | some rest => !rest.isEmpty && fullChunks false rest

/-- The `--model` value of a `claude:` suffix. -/
def parseClaudeModel (suffix : Text) : Except SpecError Text :=
  if suffix = [] then .error .claudeEmpty
  else
    let stem := (stripSuffix oneMSuffix suffix).getD suffix
    let oneM := (stripSuffix oneMSuffix suffix).isSome
    if stem = [] then .error (.claudeNoStem suffix)
    else if '/' ∈ stem then .error (.claudeSlash suffix)
    else if '#' ∈ stem then .error (.claudeHash suffix)
    else if stem ∉ claudeAliases ∧ isFullClaudeId stem = false then .error (.claudeUnknown suffix)
    else .ok (if oneM then stem ++ oneMSuffix else stem)

/-- The pairs after the token; the last one counts. -/
def tailVariant (spec : Text) : Option Text → List Text → Except SpecError (Option Text)
  | variant, [] => .ok variant
  | _, pair :: rest =>
    match splitOnce '=' pair with
    | none => .error (.notPair pair spec)
    | some (key, value) =>
      if key = "variant".toList ∨ key = "effort".toList then
        if value = [] then .error (.noValue key spec)
        else if '#' ∈ value then .error (.hashInValue key value spec)
        else tailVariant spec (some value) rest
      else .error (.unknownKey key spec)

def resolveClaude (spec lower : Text) (variant : Option Text) : Except SpecError ModelSpec :=
  match variant.filter fun effort => effort ∉ claudeEfforts with
  | some effort => .error (.openEffort effort spec)
  | none =>
    match stripPrefix "claude:".toList lower with
    | some suffix => do
      let model ← parseClaudeModel suffix
      return .fixed (.claudeOn (some model) variant)
    | none => .ok (.fixed (.claudeOn none variant))

def resolveOpencode (token lower : Text) (variant : Option Text) : Except SpecError ModelSpec :=
  if lower = "auto".toList then
    if variant.isSome then .error .autoVariant else .ok .auto
  else if lower = "reasoning".toList ∨ lower = "deepseek-reasoning".toList then
    .ok (.fixed { ModelChoice.ofOpencode deepseekReasoning with variant := variant })
  else if lower = "flash".toList ∨ lower = "deepseek-flash".toList then
    .ok (.fixed { ModelChoice.ofOpencode deepseekFlash with variant := variant })
  else if '#' ∈ lower then .error (.hashSuffix token)
  else if '/' ∈ lower then
    .ok (.fixed { ModelChoice.ofOpencode token with variant := variant })
  else .error (.unknownModel lower)

/-- The token names claude, at its default or on a model. -/
def namesClaude (lower : Text) : Bool :=
  lower = "claude".toList || "claude:".toList.isPrefixOf lower

def resolveToken (spec token : Text) (variant : Option Text) : Except SpecError ModelSpec :=
  let lower := token.map Char.toLower
  if namesClaude lower then resolveClaude spec lower variant
  else resolveOpencode token lower variant

def parseModelSpec (spec : Text) : Except SpecError ModelSpec :=
  match words spec with
  | [] => .error .empty
  | token :: pairs => do
    let variant ← tailVariant spec none pairs
    resolveToken spec token variant

/-! ### Declarations, rosters and follow-ups -/

/-- An ordered list of choices. -/
structure ModelList where
  entries : List ModelChoice
  deriving DecidableEq

def ModelList.single (choice : ModelChoice) : ModelList := ⟨[choice]⟩

def ModelList.lists (list : ModelList) (other : ModelChoice) : Bool :=
  list.entries.any fun e => e.matchesModel other

inductive Declaration where
  | auto
  | list (list : ModelList)
  deriving DecidableEq

inductive DeclarationError where
  | emptyEntry (number : Nat) (field : Text)
  | entry (number : Nat) (error : SpecError)
  | autoInList (field : Text)
  deriving DecidableEq

/-- The entries from a number on; `alone` where the field has one entry. -/
def parseEntries (field : Text) (alone : Bool) :
    Nat → List Text → Except DeclarationError Declaration
  | _, [] => .ok (.list ⟨[]⟩)
  | number, entry :: rest =>
    match parseModelSpec entry with
    | .error e => .error (.entry number e)
    | .ok .auto => if alone then .ok .auto else .error (.autoInList field)
    | .ok (.fixed choice) =>
      match parseEntries field alone (number + 1) rest with
      | .error e => .error e
      | .ok .auto => .ok .auto
      | .ok (.list list) => .ok (.list ⟨choice :: list.entries⟩)

def parseDeclaration (field : Text) : Except DeclarationError Declaration :=
  let entries := (field.splitOn ',').map trim
  match entries.findIdx? List.isEmpty with
  | some emptyAt => .error (.emptyEntry (emptyAt + 1) field)
  | none => parseEntries field (entries.length = 1) 1 entries

/-- `ModelSelection` -/
structure ModelSelection where
  model : Text
  variant : Option Text
  deriving DecidableEq

/-- What a roster entry runs on. -/
inductive MemberBackend where
  | claude (model effort : Option Text)
  | opencode (selection : ModelSelection)
  deriving DecidableEq

/-- Why a roster entry is refused. -/
inductive RosterError where
  | inlineEffort (spec : Text)
  | opencodeModel (spec : Text)
  | notClaude (spec : Text)
  | unparsed (spec : Text) (error : SpecError)
  | openEffort (variant : Text)
  | noModel
  | badModel (model : Text)
  | badVariant (variant : Text)
  deriving DecidableEq

def claudeModelOf (model : Option Text) : Except RosterError (Option Text) :=
  match model with
  | none => .ok none
  | some spec =>
    match parseModelSpec spec with
    | .ok (.fixed choice) =>
      match choice.backend with
      | .claude => if choice.variant.isSome then .error (.inlineEffort spec) else .ok choice.model
      | .opencode => .error (.opencodeModel spec)
    | .ok .auto => .error (.notClaude spec)
    | .error e => .error (.unparsed spec e)

def claudeSelection (model variant : Option Text) : Except RosterError MemberBackend := do
  let claudeModel ← claudeModelOf model
  match variant with
  | none => return .claude claudeModel none
  | some v =>
    if v ∉ claudeEfforts then .error (.openEffort v) else return .claude claudeModel (some v)

/-- Non-empty, with no `#` and no white space. -/
def tokenOk (s : Text) : Bool := !s.isEmpty && !s.contains '#' && !s.any isWhitespace

/-- `provider/model`, both halves non-empty. -/
def hasProvider (model : Text) : Bool :=
  (splitOnce '/' model).any fun halves => !halves.1.isEmpty && !halves.2.isEmpty

def opencodeSelection (model variant : Option Text) : Except RosterError ModelSelection :=
  match model with
  | none => .error .noModel
  | some model =>
    if !(tokenOk model && hasProvider model) then .error (.badModel model)
    else
      match variant.filter fun v => !tokenOk v with
      | some v => .error (.badVariant v)
      | none => .ok ⟨model, variant⟩

def MemberBackend.ipcBackend : MemberBackend → Backend
  | .claude .. => .claude
  | .opencode _ => .opencode

def MemberBackend.rosterModel : MemberBackend → Option Text
  | .claude model _ => model
  | .opencode selection => some selection.model

def MemberBackend.rosterVariant : MemberBackend → Option Text
  | .claude _ effort => effort
  | .opencode selection => selection.variant

def memberDefault (backend : Backend) (rosterModel rosterVariant : Option Text) : ModelList :=
  match backend with
  | .claude => .single (.claudeOn rosterModel rosterVariant)
  | .opencode =>
    .single { ModelChoice.ofOpencode (rosterModel.getD deepseekFlash) with
      variant := rosterVariant }

inductive ModelRuleError where
  | notAllowed
  deriving DecidableEq

def validateModelChange (allowed : ModelList) (requested : ModelChoice) (declared : Bool) :
    Except ModelRuleError Unit :=
  if declared && allowed.lists requested then .ok () else .error .notAllowed

/-- The reasons of a `model_not_allowed` refusal. -/
inductive ModelRefusal where
  | modelRequired
  | autoNamed
  | notSpec (spec : Text) (error : SpecError)
  | twoVariants (spec inlined variant : Text)
  | undeclared
  | notListed (requested : Text) (allowed : List Text)
  deriving DecidableEq

/-- The choice a follow-up asks for, none where it asks for nothing. -/
def requestedModel (model variant : Option Text) (isModelChange : Bool) (current : ModelChoice) :
    Except ModelRefusal (Option ModelChoice) :=
  match model, variant with
  | none, none => if isModelChange then .error .modelRequired else .ok none
  | none, some variant =>
    if isModelChange then .error .modelRequired
    else .ok (some { current with variant := some variant })
  | some spec, variant =>
    match parseModelSpec spec with
    | .error e => .error (.notSpec spec e)
    | .ok .auto => .error .autoNamed
    | .ok (.fixed choice) =>
      match variant with
      | none => .ok (some choice)
      | some variant =>
        match choice.variant with
        | some inlined =>
          if inlined ≠ variant then .error (.twoVariants spec inlined variant)
          else .ok (some { choice with variant := some variant })
        | none => .ok (some { choice with variant := some variant })

/-- `check_model`: the next session's choice, none where it keeps the current one. -/
def checkModel (model variant : Option Text) (isModelChange : Bool) (current : ModelChoice)
    (declared : Option ModelList) : Except ModelRefusal (Option ModelChoice) := do
  match ← requestedModel model variant isModelChange current with
  | none => return none
  | some requested =>
    if requested = current then return none
    else
      let allowed := declared.getD (.single current)
      match validateModelChange allowed requested declared.isSome with
      | .ok () => return some requested
      | .error _ =>
        if declared.isNone then .error .undeclared
        else .error (.notListed requested.render (allowed.entries.map ModelChoice.render))

/-! ### Words -/

theorem words_of_token {s : Text} (hne : s ≠ []) (h : ∀ c ∈ s, isWhitespace c = false) :
    words s = [s] := by
  rw [words, List.splitOnP_eq_singleton h]
  simp [hne]

/-- A word is not empty and has no white space. -/
theorem mem_words {s w : Text} (h : w ∈ words s) : w ≠ [] ∧ ∀ c ∈ w, isWhitespace c = false := by
  obtain ⟨hmem, hne⟩ := List.mem_filter.mp h
  exact ⟨by simpa using hne, not_of_mem_splitOnP hmem⟩

/-- What has no white space begins the first word. -/
theorem words_append {a : Text} (s : Text) (hne : a ≠ []) (h : ∀ c ∈ a, isWhitespace c = false) :
    ∃ w rest, words (a ++ s) = (a ++ w) :: rest := by
  rw [words, splitOnP_append h]
  cases hs : s.splitOnP isWhitespace with
  | nil => exact absurd hs (List.splitOnP_ne_nil _ _)
  | cons first rest =>
    refine ⟨first, rest.filter fun w => !w.isEmpty, ?_⟩
    rw [List.modifyHead_cons, List.filter_cons_of_pos]
    simp [hne]

theorem stripPrefix_eq_some {pre s rest : Text} :
    stripPrefix pre s = some rest ↔ s = pre ++ rest := by
  unfold stripPrefix
  constructor
  · intro h
    split at h
    · rename_i hpre
      obtain ⟨t, rfl⟩ := hpre
      simpa using h
    · cases h
  · rintro rfl
    rw [if_pos (List.prefix_append _ _), List.drop_left]

theorem stripSuffix_eq_some {suf s stem : Text} :
    stripSuffix suf s = some stem ↔ s = stem ++ suf := by
  unfold stripSuffix
  constructor
  · intro h
    split at h
    · rename_i hsuf
      obtain ⟨t, rfl⟩ := hsuf
      simpa using h
    · cases h
  · rintro rfl
    rw [if_pos (List.suffix_append _ _)]
    simp

/-! ### Well-formed choices -/

/-- `claude-[a-z0-9]+(-[a-z0-9]+)*` -/
def FullClaudeId (stem : Text) : Prop :=
  ∃ chunks : List Text, chunks ≠ [] ∧
    (∀ chunk ∈ chunks, chunk ≠ [] ∧ ∀ c ∈ chunk, isIdChar c = true) ∧
    stem = "claude-".toList ++ ['-'].intercalate chunks

/-- An alias or a full id, with `[1m]` or without. -/
def ClaudeModel (model : Text) : Prop :=
  ∃ stem, (stem ∈ claudeAliases ∨ FullClaudeId stem) ∧ (model = stem ∨ model = stem ++ oneMSuffix)

def ModelChoice.WellFormed (c : ModelChoice) : Prop :=
  match c.backend with
  | .claude => (∀ effort ∈ c.variant, effort ∈ claudeEfforts) ∧ ∀ model ∈ c.model, ClaudeModel model
  | .opencode => (∀ variant ∈ c.variant, '#' ∉ variant) ∧ ∀ model ∈ c.model, '#' ∉ model

theorem fullChunks_iff {hasChar : Bool} {s : Text} :
    fullChunks hasChar s = true ↔ ∃ first rest, s.splitOn '-' = first :: rest ∧
      (hasChar = true ∨ first ≠ []) ∧ (∀ c ∈ first, isIdChar c = true) ∧
      ∀ chunk ∈ rest, chunk ≠ [] ∧ ∀ c ∈ chunk, isIdChar c = true := by
  induction s generalizing hasChar with
  | nil => simp [fullChunks]
  | cons x s ih =>
    obtain ⟨first, rest, hs⟩ := List.exists_cons_of_ne_nil (List.splitOn_ne_nil '-' s)
    rw [fullChunks, List.splitOn_cons_eq_if_modifyHead]
    by_cases hx : x = '-'
    · rw [if_pos hx, Bool.and_eq_true, ih, hs]
      simp [hx]
      tauto
    · rw [if_neg hx, Bool.and_eq_true, ih, hs]
      simp [hx]
      tauto

theorem isFullClaudeId_iff {stem : Text} : isFullClaudeId stem = true ↔ FullClaudeId stem := by
  unfold isFullClaudeId FullClaudeId
  constructor
  · intro h
    split at h
    · cases h
    · rename_i rest hrest
      rw [stripPrefix_eq_some] at hrest
      rw [Bool.and_eq_true, fullChunks_iff] at h
      obtain ⟨-, first, others, hsplit, hfirst, hchars, hothers⟩ := h
      refine ⟨rest.splitOn '-', List.splitOn_ne_nil _ _, ?_, ?_⟩
      · rw [hsplit, List.forall_mem_cons]
        exact ⟨⟨by simpa using hfirst, hchars⟩, hothers⟩
      · rw [List.intercalate_splitOn, hrest]
  · rintro ⟨chunks, hne, hchunks, rfl⟩
    have hdash : ∀ chunk ∈ chunks, '-' ∉ chunk := by
      intro chunk hchunk hmem
      have := (hchunks chunk hchunk).2 '-' hmem
      exact absurd this (by decide)
    rw [stripPrefix_eq_some.mpr rfl]
    dsimp only
    obtain ⟨first, rest, rfl⟩ := List.exists_cons_of_ne_nil hne
    rw [Bool.and_eq_true, fullChunks_iff, List.splitOn_intercalate '-' hdash hne]
    refine ⟨?_, first, rest, rfl, .inr (hchunks first List.mem_cons_self).1,
      (hchunks first List.mem_cons_self).2, fun c hc => hchunks c (List.mem_cons_of_mem _ hc)⟩
    cases rest <;> simp [(hchunks first List.mem_cons_self).1]

theorem parseClaudeModel_ok {suffix model : Text} (h : parseClaudeModel suffix = .ok model) :
    ClaudeModel model ∧ '#' ∉ suffix := by
  unfold parseClaudeModel at h
  split at h
  · cases h
  · dsimp only at h
    split at h
    · cases h
    · split at h
      · cases h
      · split at h
        · cases h
        · rename_i hhash
          split at h
          · cases h
          · rename_i hknown
            have hstem := Except.ok.inj h
            have hkind : (stripSuffix oneMSuffix suffix).getD suffix ∈ claudeAliases ∨
                FullClaudeId ((stripSuffix oneMSuffix suffix).getD suffix) := by
              rw [not_and_or, not_not, Bool.not_eq_false] at hknown
              exact hknown.imp_right isFullClaudeId_iff.mp
            refine ⟨⟨_, hkind, ?_⟩, ?_⟩
            · rw [← hstem]
              split
              · exact .inr rfl
              · exact .inl rfl
            · cases hsuffix : stripSuffix oneMSuffix suffix with
              | none =>
                rw [hsuffix] at hhash
                exact hhash
              | some stem =>
                rw [hsuffix] at hhash
                rw [stripSuffix_eq_some.mp hsuffix]
                simpa [oneMSuffix] using hhash

/-! ### What a spec is read as -/

theorem tailVariant_ok {spec : Text} {variant result : Option Text} {pairs : List Text}
    (h : tailVariant spec variant pairs = .ok result) :
    (pairs = [] ∧ result = variant) ∨ (pairs ≠ [] ∧ ∃ v, result = some v ∧ '#' ∉ v) := by
  induction pairs generalizing variant with
  | nil => exact .inl ⟨rfl, (Except.ok.inj h).symm⟩
  | cons pair rest ih =>
    refine .inr ⟨List.cons_ne_nil _ _, ?_⟩
    rw [tailVariant] at h
    split at h
    · cases h
    · split at h
      · split at h
        · cases h
        · split at h
          · cases h
          · rename_i hhash
            rcases ih h with ⟨-, rfl⟩ | ⟨-, hsome⟩
            · exact ⟨_, rfl, hhash⟩
            · exact hsome
      · cases h

/-- The token starts a `claude:` spec. -/
def ClaudePinned (token : Text) : Prop := "claude:".toList <+: token.map Char.toLower

/-- What a token and its variant are read as. -/
inductive Resolved (token : Text) (variant : Option Text) : ModelChoice → Prop where
  | claude : ¬ClaudePinned token → '#' ∉ token → (∀ effort ∈ variant, effort ∈ claudeEfforts) →
      Resolved token variant ⟨.claude, none, variant⟩
  | pinned {model : Text} : ClaudePinned token → (∀ effort ∈ variant, effort ∈ claudeEfforts) →
      ClaudeModel model → '#' ∉ token → Resolved token variant ⟨.claude, some model, variant⟩
  | named {model : Text} : ¬ClaudePinned token → '#' ∉ token →
      (model = deepseekReasoning ∨ model = deepseekFlash) →
      Resolved token variant ⟨.opencode, some model, variant⟩
  | id : ¬ClaudePinned token → '#' ∉ token → '/' ∈ token →
      Resolved token variant ⟨.opencode, some token, variant⟩

/-- A character before the letters is in a text exactly where it is in lower case. -/
theorem mem_toLower {c : Char} {s : Text} (hc : c.toNat < 65) :
    c ∈ s.map Char.toLower ↔ c ∈ s := by
  have hlower : ∀ x : Char, x.toLower = c ↔ x = c := by
    intro x
    unfold Char.toLower
    split
    · rename_i hx
      have hlow : 65 ≤ x.toNat := hx.1
      have hhigh : x.toNat ≤ 90 := hx.2
      constructor
      · intro h
        have hval := congrArg Char.toNat h
        have hsum : (x.val + ('a'.val - 'A'.val)).toNat = x.toNat + 32 := by
          rw [UInt32.toNat_add]
          have : ('a'.val - 'A'.val).toNat = 32 := rfl
          have hx' : x.val.toNat = x.toNat := rfl
          omega
        have hval : (x.val + ('a'.val - 'A'.val)).toNat = c.toNat := hval
        omega
      · rintro rfl
        omega
    · exact Iff.rfl
  simp [List.mem_map, hlower]

theorem resolveClaude_ok {spec lower : Text} {variant : Option Text} {result : ModelSpec}
    (h : resolveClaude spec lower variant = .ok result) :
    (∀ effort ∈ variant, effort ∈ claudeEfforts) ∧
      ((stripPrefix "claude:".toList lower = none ∧ result = .fixed ⟨.claude, none, variant⟩) ∨
        ∃ suffix model, lower = "claude:".toList ++ suffix ∧ parseClaudeModel suffix = .ok model ∧
          result = .fixed ⟨.claude, some model, variant⟩) := by
  unfold resolveClaude at h
  split at h
  · cases h
  · rename_i hefforts
    refine ⟨?_, ?_⟩
    · intro effort heffort
      have := Option.filter_eq_none_iff.mp hefforts effort heffort
      simpa using this
    · split at h
      · rename_i suffix hsuffix
        obtain ⟨model, hmodel, h⟩ := bind_ok_iff.mp h
        exact .inr ⟨suffix, model, stripPrefix_eq_some.mp hsuffix, hmodel,
          (Except.ok.inj h).symm⟩
      · rename_i hnone
        exact .inl ⟨hnone, (Except.ok.inj h).symm⟩

theorem stripPrefix_eq_none {pre s : Text} : stripPrefix pre s = none ↔ ¬pre <+: s := by
  unfold stripPrefix
  split <;> simp [*]

theorem namesClaude_eq {lower : Text} : namesClaude lower = true ↔
    lower = "claude".toList ∨ "claude:".toList <+: lower := by
  simp only [namesClaude, Bool.or_eq_true, decide_eq_true_eq, List.isPrefixOf_iff_prefix]

/-- What a token is read as. -/
theorem resolveToken_fixed {spec token : Text} {variant : Option Text} {c : ModelChoice}
    (h : resolveToken spec token variant = .ok (.fixed c)) : Resolved token variant c := by
  have hhash : '#' ∉ token.map Char.toLower → '#' ∉ token := mt (mem_toLower (by decide)).mpr
  unfold resolveToken at h
  dsimp only at h
  split at h
  · rename_i hnames
    obtain ⟨hefforts, ⟨hnone, heq⟩ | ⟨suffix, model, hlower, hmodel, heq⟩⟩ := resolveClaude_ok h
    · cases heq
      have hpinned := stripPrefix_eq_none.mp hnone
      refine .claude hpinned (hhash ?_) hefforts
      rw [(namesClaude_eq.mp hnames).resolve_right hpinned]
      decide
    · cases heq
      obtain ⟨hkind, hsuffix⟩ := parseClaudeModel_ok hmodel
      refine .pinned ⟨suffix, hlower.symm⟩ hefforts hkind (hhash ?_)
      rw [hlower]
      simpa using hsuffix
  · rename_i hclaude
    have hpinned : ¬ClaudePinned token := fun hp => hclaude (namesClaude_eq.mpr (.inr hp))
    unfold resolveOpencode at h
    split at h
    · split at h <;> cases h
    · split at h
      · rename_i hname
        cases h
        refine .named hpinned (hhash ?_) (.inl rfl)
        rcases hname with hname | hname <;> rw [hname] <;> decide
      · split at h
        · rename_i hname
          cases h
          refine .named hpinned (hhash ?_) (.inr rfl)
          rcases hname with hname | hname <;> rw [hname] <;> decide
        · split at h
          · cases h
          · rename_i hno
            split at h
            · rename_i hslash
              cases h
              exact .id hpinned (hhash hno) ((mem_toLower (by decide)).mp hslash)
            · cases h

/-- **What a spec is read as**: its first word names the choice, and the pairs after it the
variant. -/
theorem parseModelSpec_cases {spec : Text} {c : ModelChoice}
    (h : parseModelSpec spec = .ok (.fixed c)) :
    ∃ token pairs variant, words spec = token :: pairs ∧ Resolved token variant c ∧
      ((pairs = [] ∧ variant = none) ∨ (pairs ≠ [] ∧ ∃ v, variant = some v ∧ '#' ∉ v)) := by
  unfold parseModelSpec at h
  split at h
  · cases h
  · rename_i token pairs hwords
    obtain ⟨variant, htail, h⟩ := bind_ok_iff.mp h
    exact ⟨token, pairs, variant, hwords, resolveToken_fixed h, tailVariant_ok htail⟩

theorem hash_notMem_deepseek {model : Text}
    (h : model = deepseekReasoning ∨ model = deepseekFlash) : '#' ∉ model := by
  rcases h with rfl | rfl <;> decide

/-- A choice that a spec is read as is well formed. -/
theorem wellFormed_of_parse {spec : Text} {c : ModelChoice}
    (h : parseModelSpec spec = .ok (.fixed c)) : c.WellFormed := by
  obtain ⟨token, pairs, variant, -, hresolved, htail⟩ := parseModelSpec_cases h
  have hvariant : ∀ v ∈ variant, '#' ∉ v := by
    rintro v hv
    rcases htail with ⟨-, rfl⟩ | ⟨-, v', rfl, hhash⟩
    · cases hv
    · cases hv
      exact hhash
  cases hresolved with
  | claude _ _ hefforts => exact ⟨hefforts, nofun⟩
  | pinned _ hefforts hmodel _ =>
    refine ⟨hefforts, ?_⟩
    rintro _ ⟨⟩
    exact hmodel
  | named _ _ hmodel =>
    refine ⟨hvariant, ?_⟩
    rintro _ ⟨⟩
    exact hash_notMem_deepseek hmodel
  | id _ hhash _ =>
    refine ⟨hvariant, ?_⟩
    rintro _ ⟨⟩
    exact hhash

theorem Resolved.hash_notMem {token : Text} {variant : Option Text} {c : ModelChoice}
    (h : Resolved token variant c) : '#' ∉ token := by
  cases h <;> assumption

/-! ### Reading a rendered choice -/

/-- One word that names no claude model, and nothing after it. -/
def PlainSpec (spec : Text) : Prop := ∃ token, words spec = [token] ∧ ¬ClaudePinned token

theorem parseModelSpec_word {spec token : Text} (h : words spec = [token]) :
    parseModelSpec spec = resolveToken [] token none := by
  have hspec : resolveToken spec token none = resolveToken [] token none := rfl
  rw [parseModelSpec, h, ← hspec]
  rfl

/-- A plain choice is read back. -/
theorem parse_render_of_plain {spec : Text} {c : ModelChoice}
    (h : parseModelSpec spec = .ok (.fixed c)) (hplain : PlainSpec spec) :
    parseModelSpec c.render = .ok (.fixed c) := by
  obtain ⟨word, hword, hnot⟩ := hplain
  obtain ⟨token, pairs, variant, hwords, hresolved, htail⟩ := parseModelSpec_cases h
  rw [hword] at hwords
  obtain ⟨rfl, rfl⟩ := List.cons.inj hwords
  obtain rfl : variant = none := by
    rcases htail with ⟨-, hnone⟩ | ⟨hne, -⟩
    · exact hnone
    · exact absurd rfl hne
  cases hresolved with
  | claude => rfl
  | pinned hpinned => exact absurd hpinned hnot
  | named _ _ hmodel => rcases hmodel with rfl | rfl <;> rfl
  | id _ _ _ =>
    have hmem : word ∈ words spec := hword ▸ List.mem_cons_self
    have hself := words_of_token (mem_words hmem).1 (mem_words hmem).2
    have hrender : ModelChoice.render ⟨.opencode, some word, none⟩ = word := rfl
    rw [hrender, parseModelSpec_word hself, ← parseModelSpec_word hword]
    exact h

/-- The model of an opencode choice is one word. -/
theorem opencodeModel_of_parse {spec : Text} {c : ModelChoice}
    (h : parseModelSpec spec = .ok (.fixed c)) (hc : c.backend = .opencode) :
    c.opencodeModel ≠ [] ∧ ∀ x ∈ c.opencodeModel, isWhitespace x = false := by
  obtain ⟨token, pairs, variant, hwords, hresolved, -⟩ := parseModelSpec_cases h
  have hmem : token ∈ words spec := hwords ▸ List.mem_cons_self
  cases hresolved with
  | claude => cases hc
  | pinned => cases hc
  | named _ _ hmodel =>
    have hplain {id : Text} (hid : id.any isWhitespace = false) :
        ∀ x ∈ id, isWhitespace x = false := by
      simpa using hid
    rcases hmodel with rfl | rfl
    · exact ⟨(by decide : deepseekReasoning ≠ []), hplain (by decide : deepseekReasoning.any isWhitespace = false)⟩
    · exact ⟨(by decide : deepseekFlash ≠ []), hplain (by decide : deepseekFlash.any isWhitespace = false)⟩
  | id => exact mem_words hmem

/-- No choice with a variant is read back, and no claude choice with a model. -/
theorem parse_render_ne {c : ModelChoice}
    (hset : c.variant ≠ none ∨ c.backend = .claude ∧ c.model ≠ none)
    (hid : c.backend = .opencode →
      c.opencodeModel ≠ [] ∧ ∀ x ∈ c.opencodeModel, isWhitespace x = false) :
    parseModelSpec c.render ≠ .ok (.fixed c) := by
  intro h
  cases hbackend : c.backend with
  | claude =>
    have hrender : c.render = "claude".toList := by rw [ModelChoice.render, hbackend]
    have hread : parseModelSpec "claude".toList = .ok (.fixed ⟨.claude, none, none⟩) := rfl
    rw [hrender, hread] at h
    cases h
    rcases hset with hvariant | ⟨-, hmodel⟩
    · exact hvariant rfl
    · exact hmodel rfl
  | opencode =>
    rcases hset with hvariant | ⟨hclaude, -⟩
    · obtain ⟨v, hv⟩ := Option.ne_none_iff_exists'.mp hvariant
      obtain ⟨hne, hspace⟩ := hid hbackend
      have hrender : c.render = (c.opencodeModel ++ ['#']) ++ v := by
        rw [ModelChoice.render, hbackend]
        simp [ModelChoice.opencodeModelRef, hv]
      obtain ⟨w, rest, hwords⟩ := words_append v (a := c.opencodeModel ++ ['#']) (by simp) (by
        intro x hx
        rcases List.mem_append.mp hx with hx | hx
        · exact hspace x hx
        · rw [List.mem_singleton.mp hx]
          rfl)
      rw [hrender] at h
      obtain ⟨token, pairs, variant, htoken, hresolved, -⟩ := parseModelSpec_cases h
      rw [hwords] at htoken
      obtain ⟨rfl, rfl⟩ := List.cons.inj htoken
      exact hresolved.hash_notMem (by simp)
    · rw [hbackend] at hclaude
      cases hclaude

/-- What a spec is read as is read back exactly where the spec is plain. -/
theorem parse_render_iff {spec : Text} {c : ModelChoice}
    (h : parseModelSpec spec = .ok (.fixed c)) :
    parseModelSpec c.render = .ok (.fixed c) ↔ PlainSpec spec := by
  refine ⟨fun hback => ?_, parse_render_of_plain h⟩
  by_contra hplain
  refine parse_render_ne ?_ (opencodeModel_of_parse h) hback
  obtain ⟨token, pairs, variant, hwords, hresolved, htail⟩ := parseModelSpec_cases h
  rcases htail with ⟨rfl, rfl⟩ | ⟨-, v, rfl, -⟩
  · have hpinned : ClaudePinned token := by
      by_contra hnot
      exact hplain ⟨token, hwords, hnot⟩
    cases hresolved with
    | claude hnot => exact absurd hpinned hnot
    | pinned => exact .inr ⟨rfl, by simp⟩
    | named hnot => exact absurd hpinned hnot
    | id hnot => exact absurd hpinned hnot
  · refine .inl ?_
    cases hresolved <;> simp

/-! ### Declarations -/

/-- A declaration is its comma-separated entries in order, or a lone `auto`, or it is refused. -/
def ListExact (field : Text) : Prop :=
  match parseDeclaration field with
  | .ok (.list list) => List.Forall₂
      (fun piece c => parseModelSpec (trim piece) = .ok (.fixed c)) (field.splitOn ',') list.entries
  | .ok .auto => ∃ piece, field.splitOn ',' = [piece] ∧ parseModelSpec (trim piece) = .ok .auto
  | .error _ => True

theorem parseEntries_list {field : Text} {alone : Bool} {number : Nat} {entries : List Text}
    {list : ModelList} (h : parseEntries field alone number entries = .ok (.list list)) :
    List.Forall₂ (fun entry c => parseModelSpec entry = .ok (.fixed c)) entries list.entries := by
  induction entries generalizing number list with
  | nil =>
    cases h
    exact .nil
  | cons entry rest ih =>
    rw [parseEntries] at h
    split at h
    · cases h
    · split at h <;> cases h
    · rename_i choice hchoice
      split at h
      · cases h
      · cases h
      · rename_i tail htail
        cases h
        exact .cons hchoice (ih htail)

theorem parseEntries_auto {field : Text} {alone : Bool} {number : Nat} {entries : List Text}
    (h : parseEntries field alone number entries = .ok .auto) :
    alone = true ∧ ∃ entry ∈ entries, parseModelSpec entry = .ok .auto := by
  induction entries generalizing number with
  | nil => cases h
  | cons entry rest ih =>
    rw [parseEntries] at h
    split at h
    · cases h
    · rename_i hauto
      split at h
      · rename_i halone
        exact ⟨halone, entry, List.mem_cons_self, hauto⟩
      · cases h
    · split at h
      · cases h
      · rename_i htail
        obtain ⟨halone, e, he, hparse⟩ := ih htail
        exact ⟨halone, e, List.mem_cons_of_mem _ he, hparse⟩
      · cases h

/-- **A declaration is its entries in order, or it is refused.** -/
theorem parseDeclaration_exact (field : Text) : ListExact field := by
  unfold ListExact
  split
  · rename_i list h
    unfold parseDeclaration at h
    dsimp only at h
    split at h
    · cases h
    · exact List.forall₂_map_left_iff.mp (parseEntries_list h)
  · rename_i h
    unfold parseDeclaration at h
    dsimp only at h
    split at h
    · cases h
    · obtain ⟨halone, entry, hentry, hparse⟩ := parseEntries_auto h
      rw [decide_eq_true_eq, List.length_map, List.length_eq_one_iff] at halone
      obtain ⟨piece, hpiece⟩ := halone
      refine ⟨piece, hpiece, ?_⟩
      rw [hpiece] at hentry
      rwa [List.mem_singleton.mp hentry] at hparse
  · trivial

theorem entries_of_declaration {field : Text} {list : ModelList}
    (h : parseDeclaration field = .ok (.list list)) :
    List.Forall₂ (fun piece c => parseModelSpec (trim piece) = .ok (.fixed c)) (field.splitOn ',')
      list.entries := by
  have hexact := parseDeclaration_exact field
  rwa [ListExact, h] at hexact

/-- Every declared choice is what some entry is read as. -/
theorem exists_spec_of_mem {field : Text} {list : ModelList} {c : ModelChoice}
    (h : parseDeclaration field = .ok (.list list)) (hc : c ∈ list.entries) :
    ∃ spec, parseModelSpec spec = .ok (.fixed c) := by
  obtain ⟨piece, -, hpiece⟩ := forall₂_mem_right (entries_of_declaration h) hc
  exact ⟨_, hpiece⟩

/-! ### Rosters -/

theorem claudeModelOf_ok {model result : Option Text} (h : claudeModelOf model = .ok result) :
    (model = none ∧ result = none) ∨ ∃ spec, model = some spec ∧
      parseModelSpec spec = .ok (.fixed ⟨.claude, result, none⟩) := by
  unfold claudeModelOf at h
  split at h
  · exact .inl ⟨rfl, (Except.ok.inj h).symm⟩
  · rename_i spec
    split at h
    · rename_i choice hparse
      obtain ⟨backend, m, v⟩ := choice
      cases backend with
      | claude =>
        dsimp only at h
        split at h
        · cases h
        · rename_i hnone
          obtain rfl : m = result := Except.ok.inj h
          rw [Option.not_isSome_iff_eq_none] at hnone
          subst hnone
          exact .inr ⟨spec, rfl, hparse⟩
      | opencode => cases h
    · cases h
    · cases h

theorem claudeSelection_ok {model variant : Option Text} {backend : MemberBackend}
    (h : claudeSelection model variant = .ok backend) :
    ∃ result, claudeModelOf model = .ok result ∧ backend = .claude result variant ∧
      ∀ effort ∈ variant, effort ∈ claudeEfforts := by
  obtain ⟨result, hresult, h⟩ := bind_ok_iff.mp h
  refine ⟨result, hresult, ?_⟩
  split at h
  · exact ⟨(Except.ok.inj h).symm, nofun⟩
  · rename_i v
    split at h
    · cases h
    · rename_i hmem
      refine ⟨(Except.ok.inj h).symm, ?_⟩
      rintro _ ⟨⟩
      exact not_not.mp hmem

theorem tokenOk_iff {s : Text} :
    tokenOk s = true ↔ s ≠ [] ∧ '#' ∉ s ∧ ∀ c ∈ s, isWhitespace c = false := by
  simp [tokenOk, and_assoc]

theorem opencodeSelection_ok {model variant : Option Text} {selection : ModelSelection}
    (h : opencodeSelection model variant = .ok selection) :
    ∃ id, model = some id ∧ selection = ⟨id, variant⟩ ∧ tokenOk id = true ∧ '/' ∈ id ∧
      ∀ v ∈ variant, tokenOk v = true := by
  unfold opencodeSelection at h
  split at h
  · cases h
  · rename_i id
    split at h
    · cases h
    · rename_i hshape
      rw [Bool.not_eq_true', Bool.not_eq_false, Bool.and_eq_true] at hshape
      obtain ⟨htoken, hshaped⟩ := hshape
      split at h
      · cases h
      · rename_i hvariant
        refine ⟨id, rfl, (Except.ok.inj h).symm, htoken, ?_, ?_⟩
        · cases hsplit : splitOnce '/' id with
          | none =>
            rw [hasProvider, hsplit] at hshaped
            cases hshaped
          | some halves =>
            rw [(splitOnce_eq_some.mp hsplit).1]
            simp
        · intro v hv
          have := Option.filter_eq_none_iff.mp hvariant v hv
          simpa using this

/-- A roster id is read back exactly where it does not begin as a claude spec. -/
theorem parse_rosterId_iff {id : Text} (htoken : tokenOk id = true) (hslash : '/' ∈ id) :
    parseModelSpec id = .ok (.fixed ⟨.opencode, some id, none⟩) ↔ ¬ClaudePinned id := by
  obtain ⟨hne, hhash, hspace⟩ := tokenOk_iff.mp htoken
  have hwords := words_of_token hne hspace
  constructor
  · intro h hpinned
    obtain ⟨token, pairs, variant, htoken', hresolved, -⟩ := parseModelSpec_cases h
    rw [hwords] at htoken'
    obtain ⟨rfl, rfl⟩ := List.cons.inj htoken'
    generalize hc : (⟨.opencode, some id, none⟩ : ModelChoice) = c at hresolved
    cases hresolved with
    | claude hnot => exact hnot hpinned
    | pinned => cases hc
    | named hnot => exact hnot hpinned
    | id hnot => exact hnot hpinned
  · intro hpinned
    have hslash' : '/' ∈ id.map Char.toLower := (mem_toLower (by decide)).mpr hslash
    have hhash' : '#' ∉ id.map Char.toLower := mt (mem_toLower (by decide)).mp hhash
    have hname : ∀ name : Text, '/' ∉ name → id.map Char.toLower ≠ name := by
      rintro name hno rfl
      exact hno hslash'
    have hnames : namesClaude (id.map Char.toLower) = false := by
      rw [← Bool.not_eq_true, namesClaude_eq]
      rintro (hclaude | hpre)
      · exact hname _ (by decide) hclaude
      · exact hpinned hpre
    rw [parseModelSpec_word hwords, resolveToken, hnames, if_neg Bool.false_ne_true,
      resolveOpencode, if_neg (hname _ (by decide)), if_neg (not_or.mpr ⟨hname _ (by decide),
        hname _ (by decide)⟩), if_neg (not_or.mpr ⟨hname _ (by decide), hname _ (by decide)⟩),
      if_neg hhash', if_pos hslash']
    rfl

/-! ### Where choices come from -/

/-- A follow-up's arguments and what they are judged by: the allowed list is a parsed one. -/
structure FollowUp where
  model : Option Text
  variant : Option Text
  isModelChange : Bool
  current : ModelChoice
  declared : Option ModelList
  parsed : ∀ list ∈ declared, ∃ field, parseDeclaration field = .ok (.list list)

/-- The entry points that make a choice. -/
inductive Source where
  | spec (text : Text)
  | declaration (field : Text)
  | claudeRoster (model variant : Option Text)
  | opencodeRoster (model variant : Option Text)
  | followUp (change : FollowUp)

def MemberBackend.default (member : MemberBackend) : ModelList :=
  memberDefault member.ipcBackend member.rosterModel member.rosterVariant

/-- The choices that result, none where the input is refused or changes nothing. -/
def Source.choices : Source → List ModelChoice
  | .spec text =>
    match parseModelSpec text with
    | .ok (.fixed c) => [c]
    | _ => []
  | .declaration field =>
    match parseDeclaration field with
    | .ok (.list list) => list.entries
    | _ => []
  | .claudeRoster model variant =>
    match claudeSelection model variant with
    | .ok member => member.default.entries
    | .error _ => []
  | .opencodeRoster model variant =>
    match opencodeSelection model variant with
    | .ok selection => (MemberBackend.opencode selection).default.entries
    | .error _ => []
  | .followUp change =>
    match checkModel change.model change.variant change.isModelChange change.current
        change.declared with
    | .ok (some c) => [c]
    | _ => []

/-- Every choice that results is well formed and is read back from what it renders as, and a
declaration is its entries in order. -/
structure Source.Meets (source : Source) : Prop where
  wellFormed : ∀ c ∈ source.choices, c.WellFormed
  readBack : ∀ c ∈ source.choices, parseModelSpec c.render = .ok (.fixed c)
  exact : ∀ field, source = .declaration field → ListExact field

/-- The input sets no variant and names no claude model. -/
def Source.Plain : Source → Prop
  | .spec text => PlainSpec text
  | .declaration field => ∀ piece ∈ field.splitOn ',', PlainSpec (trim piece)
  | .claudeRoster model variant => variant = none ∧ ∀ spec ∈ model, PlainSpec spec
  | .opencodeRoster model variant => variant = none ∧ ∀ id ∈ model, ¬ClaudePinned id
  | .followUp change => change.variant = none ∧ ∀ spec ∈ change.model, PlainSpec spec

/-- What a source with one choice must do. -/
theorem Source.meets_of_single {source : Source} {c : ModelChoice} (hchoices : source.choices = [c])
    (hdeclared : ∀ field, source ≠ .declaration field) :
    source.Meets ↔ c.WellFormed ∧ parseModelSpec c.render = .ok (.fixed c) := by
  constructor
  · intro h
    exact ⟨h.wellFormed c (by simp [hchoices]), h.readBack c (by simp [hchoices])⟩
  · rintro ⟨hwell, hback⟩
    refine ⟨?_, ?_, fun field hfield => absurd hfield (hdeclared field)⟩
    · simpa [hchoices] using hwell
    · simpa [hchoices] using hback

theorem Source.meets_of_none {source : Source} (hchoices : source.choices = []) : source.Meets := by
  refine ⟨?_, ?_, fun field _ => parseDeclaration_exact field⟩
  · simp [hchoices]
  · simp [hchoices]

theorem spec_meets_iff (text : Text) :
    (Source.spec text).Meets ↔ ((Source.spec text).choices ≠ [] → PlainSpec text) := by
  by_cases h : ∃ c, parseModelSpec text = .ok (.fixed c)
  · obtain ⟨c, hc⟩ := h
    have hchoices : (Source.spec text).choices = [c] := by rw [Source.choices, hc]
    rw [Source.meets_of_single hchoices (by simp), hchoices, parse_render_iff hc]
    simp [wellFormed_of_parse hc]
  · have hchoices : (Source.spec text).choices = [] := by
      unfold Source.choices
      dsimp only
      split
      · rename_i c hc
        exact absurd ⟨c, hc⟩ h
      · rfl
    exact iff_of_true (Source.meets_of_none hchoices) fun hne => absurd hchoices hne

theorem declaration_meets_iff (field : Text) :
    (Source.declaration field).Meets ↔
      ((Source.declaration field).choices ≠ [] → (Source.declaration field).Plain) := by
  by_cases h : ∃ list, parseDeclaration field = .ok (.list list)
  · obtain ⟨list, hlist⟩ := h
    have hchoices : (Source.declaration field).choices = list.entries := by
      rw [Source.choices, hlist]
    have hentries := entries_of_declaration hlist
    have hne : list.entries ≠ [] := by
      intro hnil
      rw [hnil] at hentries
      have := List.forall₂_nil_right_iff.mp hentries
      exact List.splitOn_ne_nil _ _ this
    rw [hchoices]
    constructor
    · intro hmeets _ piece hpiece
      obtain ⟨c, hc, hparse⟩ := forall₂_mem_left hentries hpiece
      exact (parse_render_iff hparse).mp (hmeets.readBack c (hchoices ▸ hc))
    · intro hplain
      refine ⟨?_, ?_, fun field _ => parseDeclaration_exact field⟩
      · intro c hc
        obtain ⟨spec, hparse⟩ := exists_spec_of_mem hlist (hchoices ▸ hc)
        exact wellFormed_of_parse hparse
      · intro c hc
        obtain ⟨piece, hpiece, hparse⟩ := forall₂_mem_right hentries (hchoices ▸ hc)
        exact (parse_render_iff hparse).mpr (hplain hne piece hpiece)
  · have hchoices : (Source.declaration field).choices = [] := by
      unfold Source.choices
      dsimp only
      split
      · rename_i list hlist
        exact absurd ⟨list, hlist⟩ h
      · rfl
    exact iff_of_true (Source.meets_of_none hchoices) fun hne => absurd hchoices hne

theorem claudeRoster_meets_iff (model variant : Option Text) :
    (Source.claudeRoster model variant).Meets ↔
      ((Source.claudeRoster model variant).choices ≠ [] →
        (Source.claudeRoster model variant).Plain) := by
  cases h : claudeSelection model variant with
  | error e =>
    have hchoices : (Source.claudeRoster model variant).choices = [] := by
      rw [Source.choices, h]
    exact iff_of_true (Source.meets_of_none hchoices) fun hne => absurd hchoices hne
  | ok member =>
    obtain ⟨result, hresult, rfl, hefforts⟩ := claudeSelection_ok h
    have hchoices : (Source.claudeRoster model variant).choices =
        [⟨.claude, result, variant⟩] := by
      rw [Source.choices, h]
      rfl
    rw [Source.meets_of_single hchoices (by simp), hchoices]
    have hmodel : (⟨.claude, result, none⟩ : ModelChoice).WellFormed ∧
        (result = none ↔ ∀ spec ∈ model, PlainSpec spec) := by
      rcases claudeModelOf_ok hresult with ⟨rfl, rfl⟩ | ⟨spec, rfl, hparse⟩
      · exact ⟨⟨nofun, nofun⟩, by simp⟩
      · refine ⟨wellFormed_of_parse hparse, ?_⟩
        have hall : (∀ s ∈ some spec, PlainSpec s) ↔ PlainSpec spec := by simp
        rw [hall, ← parse_render_iff hparse]
        cases result with
        | none => exact iff_of_true rfl rfl
        | some m =>
          exact iff_of_false (by simp)
            (parse_render_ne (.inr ⟨rfl, by simp⟩) fun hbackend => by cases hbackend)
    have hwell : (⟨.claude, result, variant⟩ : ModelChoice).WellFormed := ⟨hefforts, hmodel.1.2⟩
    constructor
    · rintro ⟨-, hback⟩ -
      have hnone : variant = none ∧ result = none := by
        by_contra hset
        refine parse_render_ne ?_ (fun hbackend => by cases hbackend) hback
        by_cases hvariant : variant = none
        · exact .inr ⟨rfl, fun hresult => hset ⟨hvariant, hresult⟩⟩
        · exact .inl hvariant
      exact ⟨hnone.1, hmodel.2.mp hnone.2⟩
    · intro hplain
      obtain ⟨rfl, hspec⟩ := hplain (by simp)
      obtain rfl := hmodel.2.mpr hspec
      exact ⟨hwell, rfl⟩

theorem opencodeRoster_meets_iff (model variant : Option Text) :
    (Source.opencodeRoster model variant).Meets ↔
      ((Source.opencodeRoster model variant).choices ≠ [] →
        (Source.opencodeRoster model variant).Plain) := by
  cases h : opencodeSelection model variant with
  | error e =>
    have hchoices : (Source.opencodeRoster model variant).choices = [] := by
      rw [Source.choices, h]
    exact iff_of_true (Source.meets_of_none hchoices) fun hne => absurd hchoices hne
  | ok selection =>
    obtain ⟨id, rfl, rfl, htoken, hslash, hvariant⟩ := opencodeSelection_ok h
    have hchoices : (Source.opencodeRoster (some id) variant).choices =
        [⟨.opencode, some id, variant⟩] := by
      rw [Source.choices, h]
      rfl
    obtain ⟨hne, hhash, hspace⟩ := tokenOk_iff.mp htoken
    have hwell : (⟨.opencode, some id, variant⟩ : ModelChoice).WellFormed := by
      refine ⟨fun v hv => (tokenOk_iff.mp (hvariant v hv)).2.1, ?_⟩
      rintro _ ⟨⟩
      exact hhash
    rw [Source.meets_of_single hchoices (by simp), hchoices]
    cases variant with
    | none =>
      have hrender : ModelChoice.render ⟨.opencode, some id, none⟩ = id := rfl
      rw [hrender, parse_rosterId_iff htoken hslash]
      simp [hwell, Source.Plain]
    | some v =>
      refine iff_of_false (fun hmeets => ?_) fun hplain => ?_
      · exact @parse_render_ne ⟨.opencode, some id, some v⟩ (.inl (by simp))
          (fun _ => ⟨hne, hspace⟩) hmeets.2
      · exact absurd (hplain (by simp)).1 (by simp)

/-! ### Follow-ups -/

/-- What a follow-up asks for: the current choice or a parsed one, with the variant it gives. -/
theorem requestedModel_ok {model variant : Option Text} {isModelChange : Bool}
    {current requested : ModelChoice}
    (h : requestedModel model variant isModelChange current = .ok (some requested)) :
    ∃ base, requested = { base with variant := variant.or base.variant } ∧
      ((model = none ∧ variant ≠ none ∧ base = current) ∨
        ∃ spec, model = some spec ∧ parseModelSpec spec = .ok (.fixed base)) := by
  unfold requestedModel at h
  split at h
  · split at h <;> cases h
  · split at h
    · cases h
    · cases h
      exact ⟨current, rfl, .inl ⟨rfl, by simp, rfl⟩⟩
  · rename_i spec
    split at h
    · cases h
    · cases h
    · rename_i choice hparse
      split at h
      · cases h
        exact ⟨requested, rfl, .inr ⟨spec, rfl, hparse⟩⟩
      · split at h
        · split at h
          · cases h
          · cases h
            exact ⟨choice, rfl, .inr ⟨spec, rfl, hparse⟩⟩
        · cases h
          exact ⟨choice, rfl, .inr ⟨spec, rfl, hparse⟩⟩

/-- What a follow-up is granted is asked for and on the declared list. -/
theorem checkModel_ok {model variant : Option Text} {isModelChange : Bool} {current c : ModelChoice}
    {declared : Option ModelList}
    (h : checkModel model variant isModelChange current declared = .ok (some c)) :
    requestedModel model variant isModelChange current = .ok (some c) ∧
      ∃ list, declared = some list ∧ list.lists c = true := by
  obtain ⟨requested, hrequested, h⟩ := bind_ok_iff.mp h
  cases requested with
  | none => cases h
  | some requested =>
    dsimp only at h
    split at h
    · cases h
    · split at h
      · rename_i hrule
        cases h
        refine ⟨hrequested, ?_⟩
        unfold validateModelChange at hrule
        split at hrule
        · rename_i hlisted
          cases declared with
          | none => cases hlisted
          | some list => exact ⟨list, rfl, hlisted⟩
        · cases hrule
      · split at h <;> cases h

/-- The model of a granted opencode choice is one word: it is some declared choice's. -/
theorem opencodeModel_of_lists {list : ModelList} {c : ModelChoice} {field : Text}
    (hparsed : parseDeclaration field = .ok (.list list)) (hlists : list.lists c = true)
    (hc : c.backend = .opencode) :
    c.opencodeModel ≠ [] ∧ ∀ x ∈ c.opencodeModel, isWhitespace x = false := by
  obtain ⟨e, he, hmatch⟩ := List.any_eq_true.mp hlists
  obtain ⟨spec, hspec⟩ := exists_spec_of_mem hparsed he
  rw [ModelChoice.matchesModel, Bool.and_eq_true, decide_eq_true_eq, decide_eq_true_eq] at hmatch
  obtain ⟨hbackend, hmodel⟩ := hmatch
  have hsame : c.opencodeModel = e.opencodeModel := by
    rw [ModelChoice.opencodeModel, ModelChoice.opencodeModel, hmodel]
  rw [hsame]
  exact opencodeModel_of_parse hspec (hbackend.trans hc)

theorem followUp_meets_iff (change : FollowUp) :
    (Source.followUp change).Meets ↔
      ((Source.followUp change).choices ≠ [] → (Source.followUp change).Plain) := by
  by_cases h : ∃ c, checkModel change.model change.variant change.isModelChange change.current
      change.declared = .ok (some c)
  · obtain ⟨c, hc⟩ := h
    have hchoices : (Source.followUp change).choices = [c] := by rw [Source.choices, hc]
    obtain ⟨hrequested, list, hlist, hlists⟩ := checkModel_ok hc
    obtain ⟨field, hfield⟩ := change.parsed list hlist
    obtain ⟨base, hbase, horigin⟩ := requestedModel_ok hrequested
    rw [Source.meets_of_single hchoices (by simp), hchoices]
    constructor
    · rintro ⟨-, hback⟩ -
      have hnone : change.variant = none := by
        by_contra hset
        have hvariant : c.variant ≠ none := by
          rw [hbase]
          simp [hset]
        exact parse_render_ne (.inl hvariant) (opencodeModel_of_lists hfield hlists) hback
      refine ⟨hnone, ?_⟩
      rcases horigin with ⟨-, hset, -⟩ | ⟨spec, hspec, hparse⟩
      · exact absurd hnone hset
      · obtain rfl : c = base := by simpa [hnone] using hbase
        rw [hspec]
        rintro _ ⟨⟩
        exact (parse_render_iff hparse).mp hback
    · intro hplain
      obtain ⟨hnone, hspecs⟩ := hplain (by simp)
      rcases horigin with ⟨-, hset, -⟩ | ⟨spec, hspec, hparse⟩
      · exact absurd hnone hset
      · obtain rfl : c = base := by simpa [hnone] using hbase
        exact ⟨wellFormed_of_parse hparse, (parse_render_iff hparse).mpr (hspecs spec hspec)⟩
  · have hchoices : (Source.followUp change).choices = [] := by
      unfold Source.choices
      dsimp only
      split
      · rename_i c hc
        exact absurd ⟨c, hc⟩ h
      · rfl
    exact iff_of_true (Source.meets_of_none hchoices) fun hne => absurd hchoices hne

/-! ### Every entry point -/

/-- **A choice is well formed and read back exactly where its input is plain**, whichever entry
point it came in by: no variant is read back, and no model that is pinned on claude. -/
theorem Source.meets_iff (source : Source) :
    source.Meets ↔ (source.choices ≠ [] → source.Plain) := by
  cases source with
  | spec text => exact spec_meets_iff text
  | declaration field => exact declaration_meets_iff field
  | claudeRoster model variant => exact claudeRoster_meets_iff model variant
  | opencodeRoster model variant => exact opencodeRoster_meets_iff model variant
  | followUp change => exact followUp_meets_iff change

/-- `flash variant=high` is rendered with a `#` that the grammar refuses. -/
theorem not_meets_flashHigh : ¬(Source.spec "flash variant=high".toList).Meets := by
  intro h
  have hparse : parseModelSpec "flash variant=high".toList =
      .ok (.fixed ⟨.opencode, some deepseekFlash, some "high".toList⟩) := by
    decide +kernel
  have hback := h.readBack ⟨.opencode, some deepseekFlash, some "high".toList⟩
    (by rw [Source.choices, hparse]; exact List.mem_cons_self)
  exact absurd hback (by decide +kernel)

end Softfig.Fleet
