import Softfig.Lib.Transition
import Softfig.Vcs.Chain

/-!
The shared-subtree allow-list and the mounts it admits.

A mount is checked by its clean components, the non-empty segments other than
`.`, while routing compares the components of the path as spelled. The two
agree unless the mount is spelled with a leading `.`, which both callers remove
before the check.

- `names_parse`: the components of a mount the check accepts;
- `reachable_admitted`: what the check keeps true of the allow-list;
- `disjointMounts_of_admitted`: admitted mounts never overlap;
- `accepted_mounts_route`: which paths the admitted mounts own.
-/

namespace Softfig.Vcs

open Softfig.Lib (System)
open Softfig.Lib.PathTree (Forest)

/-- One membership row: this device's placement of a shared chain. -/
structure SharedSubtreeEntry where
  id : String
  mountPath : String
  refName : String
  keyId : Option String
  deriving DecidableEq

structure SharedSubtreesConfig where
  subtrees : List SharedSubtreeEntry
  deriving DecidableEq

/-- The ids disabled on this device. -/
structure LocalToggles where
  disabled : List String

def LocalToggles.isDisabled (toggles : LocalToggles) (id : String) : Bool :=
  toggles.disabled.contains id

/-- Directories that are specific to one machine. -/
def machineDirs : List String := ["hardware", "services", "os", "storage", "snapshots"]

/-- Top-level names the daemon trusts or writes itself. -/
def reservedTopDirs : List String := ["config", "growlight", "journal", "inbox"]

/-- Infrastructure names, refused at any depth of a mount. -/
def infraNames : List String := [".softfig", ".claude", ".softfigignore"]

inductive ShareValidationError where
  | notGardenRelative (path : String)
  | machineDir (path : String)
  | reservedPath (path : String)
  | overlapping (path conflict : String)
  deriving DecidableEq

/-- The segments of a path. -/
def segments (path : String) : List String := (splitSlash path.toList).map String.ofList

/-- A segment that names something. -/
def isClean (c : String) : Bool := c != "" && c != "."

/-- The non-empty components of a garden-relative path; none for an absolute or
empty one, or one with `..`. -/
def cleanComponents (path : String) : Option (List String) :=
  if path.toList.head? = some '/' then none
  else
    let comps := (segments path).filter isClean
    if comps = [] ∨ ".." ∈ comps then none else some comps

def isPrefix (a b : List String) : Bool :=
  decide (a.length ≤ b.length) && (a.zip b).all fun xy => xy.1 == xy.2

/-- The id of the first row whose mount lies on one path with `comps`. A row with
a mount the check cannot read is passed over. -/
def overlap (comps : List String) : List SharedSubtreeEntry → Option String
  | [] => none
  | existing :: rest =>
    match cleanComponents existing.mountPath with
    | none => overlap comps rest
    | some ex =>
      if isPrefix comps ex || isPrefix ex comps then some existing.id else overlap comps rest

def validateShareAdd (membership : SharedSubtreesConfig) (mountPath : String) :
    Except ShareValidationError Unit :=
  match cleanComponents mountPath with
  | none => .error (.notGardenRelative mountPath)
  | some comps =>
    if comps.headD "" ∈ machineDirs then .error (.machineDir mountPath)
    else if comps.headD "" ∈ reservedTopDirs ∨ comps.any (fun c => infraNames.contains c) then
      .error (.reservedPath mountPath)
    else
      match overlap comps membership.subtrees with
      | some conflict => .error (.overlapping mountPath conflict)
      | none => .ok ()

/-- The chain of a row. -/
def SharedSubtreeEntry.chain (e : SharedSubtreeEntry) (toggles : LocalToggles) : Chain :=
  { Chain.shared e.id e.refName (.parse e.mountPath) (!toggles.isDisabled e.id) with
    keyId := e.keyId }

def ChainRegistry.fromSharedConfig (membership : SharedSubtreesConfig) (toggles : LocalToggles) :
    ChainRegistry :=
  ⟨.device, membership.subtrees.map fun e => e.chain toggles⟩

/-! ### The life of an allow-list -/

/-- The edits the daemon makes: a validated row is added, rows of an id are
removed, and a key ceremony sets the key of a chain's rows. -/
inductive MembershipEdit where
  | add (entry : SharedSubtreeEntry)
  | remove (id : String)
  | setKey (refName keyId : String)

def SharedSubtreesConfig.edit (m : SharedSubtreesConfig) :
    MembershipEdit → Option SharedSubtreesConfig
  | .add entry =>
    match validateShareAdd m entry.mountPath with
    | .ok () => some ⟨m.subtrees ++ [entry]⟩
    | .error _ => none
  | .remove id => some ⟨m.subtrees.filter fun e => e.id != id⟩
  | .setKey refName keyId =>
    some ⟨m.subtrees.map fun e => if e.refName = refName then { e with keyId := some keyId } else e⟩

def membershipSystem : System SharedSubtreesConfig MembershipEdit :=
  .ofFun ⟨[]⟩ SharedSubtreesConfig.edit

/-! ### Clean components and path components -/

theorem isPrefix_iff {a b : List String} : isPrefix a b = true ↔ a <+: b := by
  induction a generalizing b with
  | nil => simp [isPrefix]
  | cons x a ih =>
    cases b with
    | nil => simp [isPrefix]
    | cons y b =>
      rw [List.cons_prefix_cons, ← ih]
      simp only [isPrefix, List.length_cons, List.zip_cons_cons, List.all_cons, Bool.and_eq_true,
        decide_eq_true_eq, beq_iff_eq, Nat.add_le_add_iff_right]
      tauto

theorem noSlash_of_mem_splitSlash {s seg : List Char} (h : seg ∈ splitSlash s) : '/' ∉ seg := by
  induction s generalizing seg with
  | nil => simp_all [splitSlash]
  | cons c s ih =>
    rw [splitSlash] at h
    split_ifs at h with hc
    · rcases List.mem_cons.mp h with rfl | h
      · exact List.not_mem_nil
      · exact ih h
    · split at h
      · rw [List.mem_singleton.mp h]
        simpa using fun heq => hc heq.symm
      · rename_i first rest hsplit
        rcases List.mem_cons.mp h with rfl | h
        · rw [List.mem_cons, not_or]
          exact ⟨fun heq => hc heq.symm, ih (hsplit ▸ List.mem_cons_self)⟩
        · exact ih (hsplit ▸ List.mem_cons_of_mem _ h)

theorem ofList_eq_iff {seg : List Char} {s : String} :
    String.ofList seg = s ↔ seg = s.toList := by
  constructor
  · rintro rfl
    simp
  · rintro rfl
    simp

/-- A segment is a component unless it is empty or `.`. -/
theorem segment?_names {seg : List Char} (h : '/' ∉ seg) :
    (segment? seg).toList.map Component.asStr = [String.ofList seg].filter isClean := by
  unfold segment?
  by_cases hparent : seg = ['.', '.']
  · subst hparent
    decide
  · rw [if_neg hparent]
    by_cases hempty : seg = []
    · subst hempty
      decide
    · by_cases hdot : seg = ['.']
      · subst hdot
        decide
      · have hname : isFileName (String.ofList seg).toList = true := by
          simp [isFileName, h, hparent, hempty, hdot]
        have hkeep : isClean (String.ofList seg) = true := by
          simp [isClean, ofList_eq_iff, hempty, hdot]
        rw [dif_pos hname, List.filter_cons_of_pos hkeep]
        rfl

theorem filterMap_segment?_names {segs : List (List Char)} (h : ∀ seg ∈ segs, '/' ∉ seg) :
    (segs.filterMap segment?).map Component.asStr = (segs.map String.ofList).filter isClean := by
  induction segs with
  | nil => rfl
  | cons seg segs ih =>
    have hseg := segment?_names (h seg List.mem_cons_self)
    have hrest := ih fun s hs => h s (List.mem_cons_of_mem _ hs)
    have hsplit : (seg :: segs).filterMap segment? =
        (segment? seg).toList ++ segs.filterMap segment? := by
      cases hs : segment? seg <;> simp [hs]
    rw [hsplit, List.map_append, hseg, hrest, ← List.filter_append]
    rfl

/-- An empty first segment is the empty path or an absolute one. -/
theorem head?_of_splitSlash {s : List Char} {rest : List (List Char)}
    (h : splitSlash s = [] :: rest) : s = [] ∨ s.head? = some '/' := by
  cases s with
  | nil => exact .inl rfl
  | cons c s =>
    rw [splitSlash] at h
    split_ifs at h with hc
    · exact .inr (by rw [hc]; rfl)
    · split at h <;> cases h

theorem cleanComponents_eq {path : String} {comps : List String}
    (h : cleanComponents path = some comps) :
    path.toList.head? ≠ some '/' ∧ comps ≠ [] ∧ ".." ∉ comps ∧
      comps = (segments path).filter isClean := by
  unfold cleanComponents at h
  split_ifs at h with hroot
  simp only at h
  split_ifs at h with hbad
  cases h
  rw [not_or] at hbad
  exact ⟨hroot, hbad.1, hbad.2, rfl⟩

/-- The path is spelled with a leading `.`. -/
def Path.dotted (p : Path) : Bool := p.components.head? = some .curDir

/-- The components of an accepted spelling: the clean ones, or `.` and the clean
ones. -/
theorem names_parse_cases {path : String} {comps : List String}
    (h : cleanComponents path = some comps) :
    ((Path.parse path).dotted = true ∧ (Path.parse path).names = "." :: comps) ∨
      ((Path.parse path).dotted = false ∧ (Path.parse path).names = comps) := by
  obtain ⟨hroot, hne, -, hcomps⟩ := cleanComponents_eq h
  obtain ⟨first, rest, hsplit⟩ := List.exists_cons_of_ne_nil (splitSlash_ne_nil path.toList)
  have hslash : ∀ seg ∈ first :: rest, '/' ∉ seg := fun seg hseg =>
    noSlash_of_mem_splitSlash (hsplit ▸ hseg)
  have hparse : (Path.parse path).components =
      (firstSegment? first rest.length).toList ++ rest.filterMap segment? := by
    simp only [Path.parse, parseComponents, hsplit]
  have hfirst := segment?_names (hslash first List.mem_cons_self)
  have hrest := filterMap_segment?_names fun seg hs => hslash seg (List.mem_cons_of_mem _ hs)
  have hcomps' : comps = ([String.ofList first].filter isClean) ++
      (rest.map String.ofList).filter isClean := by
    rw [hcomps, segments, hsplit, ← List.filter_append]
    rfl
  rw [← hrest] at hcomps'
  by_cases hdot : first = ['.']
  · refine .inl ⟨?_, ?_⟩
    · simp [Path.dotted, hparse, hdot, firstSegment?]
    · have hdrop : [String.ofList first].filter isClean = [] := by
        rw [hdot]
        decide
      rw [Path.names, hparse, hcomps', hdrop, hdot]
      rfl
  · have hempty : first ≠ [] := by
      rintro rfl
      rcases head?_of_splitSlash hsplit with hnil | hslash
      · refine hne ?_
        rw [hcomps, segments, hnil]
        decide
      · exact hroot hslash
    have hsegment : firstSegment? first rest.length = segment? first := by
      rw [firstSegment?, if_neg hdot, if_neg hempty]
    refine .inr ⟨?_, ?_⟩
    · rw [hsegment] at hparse
      have hinterior : ∀ c ∈ (Path.parse path).components, c.isInterior = true := by
        rw [hparse]
        intro c hc
        rcases List.mem_append.mp hc with hc | hc
        · exact segment?_isInterior (Option.mem_toList.mp hc)
        · obtain ⟨seg, -, hseg⟩ := List.mem_filterMap.mp hc
          exact segment?_isInterior hseg
      by_contra hdotted
      simp only [Path.dotted, Bool.not_eq_false, decide_eq_true_eq] at hdotted
      have := hinterior _ (List.mem_of_mem_head? hdotted)
      cases this
    · rw [Path.names, hparse, hsegment, List.map_append, hfirst, hcomps']

theorem dot_notMem {path : String} {comps : List String} (h : cleanComponents path = some comps) :
    "." ∉ comps := by
  obtain ⟨-, -, -, hcomps⟩ := cleanComponents_eq h
  intro hmem
  rw [hcomps] at hmem
  have := (List.mem_filter.mp hmem).2
  revert this
  decide

/-! ### What the check admits -/

/-- A mount outside the machine's own, the reserved and the infrastructure names. -/
def Shareable (mountPath : String) : Prop :=
  ∃ comps, cleanComponents mountPath = some comps ∧ comps.headD "" ∉ machineDirs ∧
    comps.headD "" ∉ reservedTopDirs ∧ ∀ c ∈ comps, c ∉ infraNames

/-- Neither spelling names a path on the way to the other's. -/
def SpelledApart (a b : String) : Prop :=
  ∀ c d, cleanComponents a = some c → cleanComponents b = some d → Forest.Apart c d

theorem overlap_eq_none {comps : List String} {entries : List SharedSubtreeEntry}
    (h : overlap comps entries = none) :
    ∀ e ∈ entries, ∀ ex, cleanComponents e.mountPath = some ex → Forest.Apart comps ex := by
  induction entries with
  | nil => exact nofun
  | cons existing rest ih =>
    rw [overlap] at h
    intro e he ex hex
    cases hclean : cleanComponents existing.mountPath with
    | none =>
      rw [hclean] at h
      rcases List.mem_cons.mp he with rfl | he
      · rw [hclean] at hex
        cases hex
      · exact ih h e he ex hex
    | some ex' =>
      rw [hclean] at h
      simp only [Bool.or_eq_true, isPrefix_iff] at h
      split_ifs at h with hbelow
      rcases List.mem_cons.mp he with rfl | he
      · rw [hclean] at hex
        cases hex
        exact not_or.mp hbelow
      · exact ih h e he ex hex

/-- What an accepted mount met. -/
theorem validateShareAdd_ok {m : SharedSubtreesConfig} {mountPath : String}
    (h : validateShareAdd m mountPath = .ok ()) :
    Shareable mountPath ∧ ∀ e ∈ m.subtrees, SpelledApart mountPath e.mountPath := by
  unfold validateShareAdd at h
  cases hclean : cleanComponents mountPath with
  | none =>
    rw [hclean] at h
    cases h
  | some comps =>
    simp only [hclean] at h
    split_ifs at h with hmachine hreserved
    rw [not_or] at hreserved
    cases hoverlap : overlap comps m.subtrees with
    | some conflict =>
      rw [hoverlap] at h
      cases h
    | none =>
      refine ⟨⟨comps, hclean, hmachine, hreserved.1, fun c hc hinfra => hreserved.2 ?_⟩, ?_⟩
      · exact List.any_eq_true.mpr ⟨c, hc, List.contains_iff_mem.mpr hinfra⟩
      · intro e he c d hc hd
        rw [hclean] at hc
        cases hc
        exact overlap_eq_none hoverlap e he d hd

/-- An allow-list whose mounts are shareable and apart. -/
structure Admitted (m : SharedSubtreesConfig) : Prop where
  shareable : ∀ e ∈ m.subtrees, Shareable e.mountPath
  apart : m.subtrees.Pairwise fun d e => SpelledApart d.mountPath e.mountPath

theorem Admitted.edit {m m' : SharedSubtreesConfig} {change : MembershipEdit} (hm : Admitted m)
    (h : m.edit change = some m') : Admitted m' := by
  cases change with
  | add entry =>
    simp only [SharedSubtreesConfig.edit] at h
    cases hvalid : validateShareAdd m entry.mountPath with
    | error err =>
      rw [hvalid] at h
      cases h
    | ok =>
      rw [hvalid] at h
      cases h
      obtain ⟨hshareable, hapart⟩ := validateShareAdd_ok hvalid
      constructor
      · intro e he
        rcases List.mem_append.mp he with he | he
        · exact hm.shareable e he
        · rw [List.mem_singleton.mp he]
          exact hshareable
      · refine List.pairwise_append.mpr ⟨hm.apart, List.pairwise_singleton _ _, ?_⟩
        intro d hd e he c c' hc hc'
        rw [List.mem_singleton.mp he] at hc'
        exact (hapart d hd c' c hc' hc).symm
  | remove id =>
    cases h
    exact ⟨fun e he => hm.shareable e (List.mem_filter.mp he).1, hm.apart.filter _⟩
  | setKey refName keyId =>
    cases h
    have hmount : ∀ e : SharedSubtreeEntry,
        (if e.refName = refName then { e with keyId := some keyId } else e).mountPath =
          e.mountPath := by
      intro e
      split_ifs <;> rfl
    constructor
    · intro e he
      obtain ⟨d, hd, rfl⟩ := List.mem_map.mp he
      rw [hmount]
      exact hm.shareable d hd
    · rw [List.pairwise_map]
      refine hm.apart.imp fun {d e} h => ?_
      rw [hmount, hmount]
      exact h

theorem reachable_admitted {m : SharedSubtreesConfig} (h : membershipSystem.Reachable m) :
    Admitted m := by
  refine System.Reachable.invariant ?_ ?_ h
  · intro s hs
    rw [show s = ⟨[]⟩ from hs]
    exact ⟨nofun, .nil⟩
  · intro s change t _ hs hstep
    exact hs.edit hstep

/-! ### What admitted mounts own -/

/-- Mounts whose clean components are apart are apart as spelled. -/
theorem parse_apart {a b : String} {c d : List String} (ha : cleanComponents a = some c)
    (hb : cleanComponents b = some d) (h : Forest.Apart c d) :
    Forest.Apart (Path.parse a).components (Path.parse b).components := by
  have hside : ∀ {a b : String} {c d : List String}, cleanComponents a = some c →
      cleanComponents b = some d → ¬ c <+: d →
      ¬ (Path.parse a).components <+: (Path.parse b).components := by
    intro a b c d ha hb hcd hbelow
    have hnames : (Path.parse a).names <+: (Path.parse b).names := hbelow.map _
    rcases names_parse_cases ha with ⟨-, ha'⟩ | ⟨-, ha'⟩ <;>
      rcases names_parse_cases hb with ⟨-, hb'⟩ | ⟨-, hb'⟩ <;> rw [ha', hb'] at hnames
    · exact hcd (List.cons_prefix_cons.mp hnames).2
    · exact dot_notMem hb (hnames.subset List.mem_cons_self)
    · obtain ⟨x, xs, rfl⟩ := List.exists_cons_of_ne_nil (cleanComponents_eq ha).2.1
      rw [(List.cons_prefix_cons.mp hnames).1] at ha
      exact dot_notMem ha List.mem_cons_self
    · exact hcd hnames
  exact ⟨hside ha hb h.1, hside hb ha h.2⟩

section Routing

variable {m : SharedSubtreesConfig} {toggles : LocalToggles}

theorem disjointMounts_of_admitted (hm : Admitted m) :
    (ChainRegistry.fromSharedConfig m toggles).DisjointMounts := by
  refine List.Pairwise.filter _ (List.pairwise_map.mpr ?_)
  refine hm.apart.imp_of_mem fun {d e} hd he happart => ?_
  rintro _ ⟨⟩ _ ⟨⟩
  obtain ⟨c, hc, -⟩ := hm.shareable d hd
  obtain ⟨c', hc', -⟩ := hm.shareable e he
  exact parse_apart hc hc' (happart c c' hc hc')

theorem chain_mem {e : SharedSubtreeEntry} (he : e ∈ m.subtrees) :
    e.chain toggles ∈ (ChainRegistry.fromSharedConfig m toggles).shared :=
  List.mem_map.mpr ⟨e, he, rfl⟩

/-- An owner is the device chain or the chain of a row mounted above the path. -/
theorem fromSharedConfig_cases (p : Path) :
    (ChainRegistry.fromSharedConfig m toggles).owningChain p = .device ∨
      ∃ e ∈ m.subtrees, (ChainRegistry.fromSharedConfig m toggles).owningChain p =
        e.chain toggles ∧ p.startsWith (.parse e.mountPath) = true := by
  rcases (ChainRegistry.fromSharedConfig m toggles).owningChain_cases p with
    h | ⟨hmem, -, mount, hmount, hbelow⟩
  · exact .inl h
  · obtain ⟨e, he, heq⟩ := List.mem_map.mp hmem
    rw [← heq] at hmount
    cases hmount
    exact .inr ⟨e, he, heq.symm, hbelow⟩

theorem owningChain_of_startsWith (hm : Admitted m)
    (henabled : ∀ e ∈ m.subtrees, toggles.isDisabled e.id = false) {e : SharedSubtreeEntry}
    (he : e ∈ m.subtrees) {p : Path} (hp : p.startsWith (.parse e.mountPath) = true) :
    (ChainRegistry.fromSharedConfig m toggles).owningChain p = e.chain toggles := by
  refine ChainRegistry.owningChain_eq (disjointMounts_of_admitted hm) (chain_mem he) ?_ rfl hp
  show (!toggles.isDisabled e.id) = true
  rw [henabled e he]
  rfl

/-- A mount spelled without a leading `.` owns what its clean components lead to. -/
theorem owningChain_iff (hm : Admitted m)
    (henabled : ∀ e ∈ m.subtrees, toggles.isDisabled e.id = false) {e : SharedSubtreeEntry}
    (he : e ∈ m.subtrees) (hdot : (Path.parse e.mountPath).dotted = false) {comps : List String}
    (hcomps : cleanComponents e.mountPath = some comps) (p : Path) :
    (ChainRegistry.fromSharedConfig m toggles).owningChain p = e.chain toggles ↔
      comps <+: p.names := by
  have hnames : (Path.parse e.mountPath).names = comps := by
    rcases names_parse_cases hcomps with ⟨hdotted, -⟩ | ⟨-, hnames⟩
    · rw [hdot] at hdotted
      cases hdotted
    · exact hnames
  rw [← hnames, ← Path.startsWith_iff_names]
  constructor
  · intro howner
    rcases (ChainRegistry.fromSharedConfig m toggles).owningChain_cases p with
      h | ⟨-, -, mount, hmount, hbelow⟩
    · rw [howner] at h
      cases congrArg Chain.kind h
    · rw [howner] at hmount
      cases hmount
      exact hbelow
  · exact owningChain_of_startsWith hm henabled he

/-- Of a path spelled without a leading `.`, the owner's clean components lead to it. -/
theorem clean_prefix_of_owner (hm : Admitted m) {p : Path} (hp : p.dotted = false)
    {e : SharedSubtreeEntry} (he : e ∈ m.subtrees)
    (hbelow : p.startsWith (.parse e.mountPath) = true) :
    ∃ comps, cleanComponents e.mountPath = some comps ∧ comps <+: p.names ∧
      (∀ n ∈ p.names.head?, n ∉ machineDirs ∧ n ∉ reservedTopDirs) ∧
      ∀ n ∈ comps, n ∉ infraNames := by
  obtain ⟨comps, hcomps, hmachine, hreserved, hinfra⟩ := hm.shareable e he
  have hne := (cleanComponents_eq hcomps).2.1
  rcases names_parse_cases hcomps with ⟨hdotted, -⟩ | ⟨-, hnames⟩
  · obtain ⟨rest, hrest⟩ := Path.startsWith_iff.mp hbelow
    simp only [Path.dotted, decide_eq_true_eq, decide_eq_false_iff_not] at hdotted hp
    rw [← hrest, List.head?_append, hdotted] at hp
    exact absurd rfl hp
  · rw [Path.startsWith_iff_names, hnames] at hbelow
    refine ⟨comps, hcomps, hbelow, ?_, hinfra⟩
    obtain ⟨rest, hrest⟩ := hbelow
    obtain ⟨x, xs, rfl⟩ := List.exists_cons_of_ne_nil hne
    intro n hn
    rw [← hrest] at hn
    cases hn
    exact ⟨hmachine, hreserved⟩

end Routing

/-- The check accepts a spelling that routes nowhere, and a mount owns its own
root and the infrastructure names below it. -/
theorem accepted_mounts_strictly_under_fails :
    (validateShareAdd ⟨[]⟩ "./projects/app" = .ok () ∧
      (ChainRegistry.fromSharedConfig ⟨[⟨"app", "./projects/app", "chain/app", none⟩]⟩ ⟨[]⟩).owningChain
        (.parse "projects/app/x") = .device) ∧
    validateShareAdd ⟨[]⟩ "projects/app" = .ok () ∧
      let e : SharedSubtreeEntry := ⟨"app", "projects/app", "chain/app", none⟩
      let reg := ChainRegistry.fromSharedConfig ⟨[e]⟩ ⟨[]⟩
      reg.owningChain (.parse "projects/app") = e.chain ⟨[]⟩ ∧
        reg.owningChain (.parse "projects/app/.claude/settings.json") = e.chain ⟨[]⟩ := by
  decide +kernel

/-- **What accepted mounts own.** In every allow-list the daemon's edits reach,
with every row enabled:

- what is pushed on a mount, as spelled, is its chain's;
- a mount spelled without a leading `.` owns exactly the paths at or below its
  clean components;
- no path is at or below the clean components of two rows;
- any path without a leading `.` is the device chain's, or it is at or below the
  clean components of the row that owns it; then it does not start with a
  machine or a reserved directory, and no infrastructure name is on its mount. -/
theorem accepted_mounts_route (m : SharedSubtreesConfig) (hreach : membershipSystem.Reachable m)
    (toggles : LocalToggles) (henabled : ∀ e ∈ m.subtrees, toggles.isDisabled e.id = false) :
    let reg := ChainRegistry.fromSharedConfig m toggles
    (∀ e ∈ m.subtrees, ∀ rel : Path, rel.components.head? ≠ some .rootDir →
      reg.owningChain ((Path.parse e.mountPath).push rel) = e.chain toggles) ∧
    (∀ e ∈ m.subtrees, (Path.parse e.mountPath).dotted = false →
      ∃ comps, cleanComponents e.mountPath = some comps ∧
        ∀ p, reg.owningChain p = e.chain toggles ↔ comps <+: p.names) ∧
    m.subtrees.Pairwise (fun d e => ∀ c c', cleanComponents d.mountPath = some c →
      cleanComponents e.mountPath = some c' → ∀ p : Path, ¬ (c <+: p.names ∧ c' <+: p.names)) ∧
    ∀ p : Path, p.dotted = false → reg.owningChain p = reg.device ∨
      ∃ e ∈ m.subtrees, reg.owningChain p = e.chain toggles ∧
        ∃ comps, cleanComponents e.mountPath = some comps ∧ comps <+: p.names ∧
          (∀ n ∈ p.names.head?, n ∉ machineDirs ∧ n ∉ reservedTopDirs) ∧
          ∀ n ∈ comps, n ∉ infraNames := by
  intro reg
  have hm := reachable_admitted hreach
  refine ⟨?_, ?_, ?_, ?_⟩
  · intro e he rel hrel
    exact owningChain_of_startsWith hm henabled he (Path.startsWith_push hrel)
  · intro e he hdot
    obtain ⟨comps, hcomps, -⟩ := hm.shareable e he
    exact ⟨comps, hcomps, owningChain_iff hm henabled he hdot hcomps⟩
  · refine hm.apart.imp fun {d e} happart c c' hc hc' p hboth => ?_
    have h := happart c c' hc hc'
    rcases List.prefix_or_prefix_of_prefix hboth.1 hboth.2 with hbelow | hbelow
    · exact h.1 hbelow
    · exact h.2 hbelow
  · intro p hp
    rcases fromSharedConfig_cases p with hdevice | ⟨e, he, howner, hbelow⟩
    · exact .inl hdevice
    · exact .inr ⟨e, he, howner, clean_prefix_of_owner hm hp he hbelow⟩

def demoEdits : List MembershipEdit :=
  [.add ⟨"app", "projects//app", "chain/app", none⟩, .setKey "chain/app" "k1",
    .add ⟨"wiki", "notes/wiki/", "chain/wiki", none⟩]

def demoMembership : SharedSubtreesConfig :=
  (System.replay SharedSubtreesConfig.edit ⟨[]⟩ demoEdits).getD ⟨[]⟩

theorem accepted_mounts_route_two :
    demoMembership.subtrees.map (fun e => cleanComponents e.mountPath) =
      [some ["projects", "app"], some ["notes", "wiki"]] ∧
    ∀ p : Path, p.dotted = false →
      (ChainRegistry.fromSharedConfig demoMembership ⟨[]⟩).owningChain p = .device ∨
      ∃ e ∈ demoMembership.subtrees, (ChainRegistry.fromSharedConfig demoMembership
          ⟨[]⟩).owningChain p = e.chain ⟨[]⟩ ∧
        ∃ comps, cleanComponents e.mountPath = some comps ∧ comps <+: p.names ∧
          (∀ n ∈ p.names.head?, n ∉ machineDirs ∧ n ∉ reservedTopDirs) ∧
          ∀ n ∈ comps, n ∉ infraNames :=
  ⟨by decide +kernel, (accepted_mounts_route demoMembership
    (System.replay_reachable (by decide +kernel)) ⟨[]⟩ (fun _ _ => rfl)).2.2.2⟩

end Softfig.Vcs
