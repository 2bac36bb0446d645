import Mathlib.Data.Finset.Card
import Mathlib.Data.List.AList
import Softfig.Queue.Model

/-!
What a member runs next: the unit walk, eligibility and the four steps of the
pick, over a view of the files.

- `V2Snapshot.walk_eq`: the walk is the recursion of the source, whatever the
  depth of the trees;
- `pick_exact`: which entry the pick takes, with what unit, and what it reports
  about the others.
-/

namespace Softfig.Queue

inductive Backend where
  | claude
  | opencode
  deriving DecidableEq

structure ModelChoice where
  backend : Backend
  model : Option String
  variant : Option String
  deriving DecidableEq

/-- The models a document allows, in the order it lists them. -/
structure ModelList where
  entries : List ModelChoice
  nonempty : entries ≠ []
  deriving DecidableEq

def ModelList.firstForBackend (models : ModelList) (backend : Backend) : Option ModelChoice :=
  models.entries.find? fun e => e.backend = backend

def ModelList.backendCanRun (models : ModelList) (backend : Backend) : Bool :=
  (models.firstForBackend backend).isSome

/-- A member that asks for work; `pin` names a project. -/
structure Member where
  id : String
  backend : Backend
  pin : Option String
  deriving DecidableEq

structure ProjectView where
  name : String
  repo : String
  deriving DecidableEq

/-- A live row with its holder, and the models of a task's or restack's document. -/
structure EntryView where
  id : String
  kind : EntryKind
  project : String
  lane : Lane
  status : EntryStatus
  after : List String
  holder : Option String
  models : Option ModelList
  deriving DecidableEq

structure ItemView where
  kind : SliceKind
  id : String
  status : SliceStatus
  models : Option ModelList
  deriving DecidableEq

/-- A slice order, with the models of the close-out. -/
structure TreeView where
  items : List ItemView
  models : Option ModelList
  deriving DecidableEq

/-- What the pick reads: live rows in file order, the slice orders by milestone,
and the ids archived done. -/
structure V2Snapshot where
  projects : List ProjectView
  entries : List EntryView
  trees : AList fun _ : String => TreeView
  doneIds : List String

/-- One unit of work: a slice, a close-out, or the task or restack itself. -/
inductive WorkUnit where
  | slice (milestone slice : String)
  | closeOut (milestone : String)
  | entry
  deriving DecidableEq

inductive SkipReason where
  | notEligible
  | afterNotDone
  | repoHeld
  | held
  | remote
  | noUnit
  | blockedWalk
  | backendMismatch
  | notPinned
  deriving DecidableEq

structure Pick where
  entry : String
  unit : WorkUnit
  declared : Option ModelList
  deriving DecidableEq

structure Skip where
  entry : String
  reason : SkipReason
  deriving DecidableEq

structure PickOutcome where
  picked : Option Pick
  skips : List Skip
  deriving DecidableEq

inductive WalkOutcome where
  | unit (unit : WorkUnit) (models : Option ModelList)
  | blocked (address : String)
  | noUnit
  deriving DecidableEq

/-! ### The unit walk -/

/-- The first open item of a slice order; `into` walks a sub-milestone, and
`closeOut` is what stands behind the last item. -/
def walkItems (into : String → WalkOutcome) (milestone : String) (closeOut : WalkOutcome) :
    List ItemView → WalkOutcome
  | [] => closeOut
  | item :: items =>
    match item.status with
    | .queued | .active =>
      match item.kind with
      | .slice => .unit (.slice milestone item.id) item.models
      | .sub => into (milestone ++ "/" ++ item.id)
    | .blocked => .blocked (milestone ++ ":" ++ item.id)
    | .done | .split | .deferred => walkItems into milestone closeOut items

def walkTree (trees : AList fun _ : String => TreeView) : Nat → String → WalkOutcome
  | 0, _ => .noUnit
  | fuel + 1, milestone =>
    match trees.lookup milestone with
    | none => .noUnit
    | some tree =>
      walkItems (walkTree trees fuel) milestone (.unit (.closeOut milestone) tree.models)
        tree.items

/-- The walk of a milestone; it enters no tree twice. -/
def V2Snapshot.walk (s : V2Snapshot) (milestone : String) : WalkOutcome :=
  walkTree s.trees (s.trees.keys.toFinset.card + 1) milestone

def nextUnit (s : V2Snapshot) (entry : EntryView) : WalkOutcome :=
  match entry.kind with
  | .task | .restack => .unit .entry entry.models
  | .milestone => s.walk entry.id

/-! ### Eligibility -/

/-- The repo of an entry's project. -/
def V2Snapshot.repoOf (s : V2Snapshot) (entry : EntryView) : Option String :=
  (s.projects.find? fun p => p.name = entry.project).map (·.repo)

/-- Another started normal entry works on the repo. -/
def V2Snapshot.repoHeld (s : V2Snapshot) (entry : EntryView) (repo : String) : Bool :=
  s.entries.any fun other =>
    other.id ≠ entry.id ∧ other.lane = .normal ∧ other.status.isStarted = true ∧
      s.repoOf other = some repo

/-- The next unit of an entry a member may take, or the first clause that
forbids it. -/
def eligible (s : V2Snapshot) (member : Member) (entry : EntryView) :
    Except SkipReason (WorkUnit × Option ModelList) :=
  if entry.status ≠ .queued ∧ entry.status ≠ .active ∧ entry.status ≠ .paused then
    .error .notEligible
  else if entry.after.any (fun id => id ∉ s.doneIds) = true then .error .afterNotDone
  else
    match s.repoOf entry with
    | none => .error .notEligible
    | some repo =>
      if entry.lane = .normal ∧ s.repoHeld entry repo = true then .error .repoHeld
      else if entry.status = .active ∧ entry.holder.any (fun h => h ≠ member.id) = true then
        .error .held
      else if member.backend = .opencode ∧ repo.toList.contains ':' = true then .error .remote
      else
        match nextUnit s entry with
        | .unit unit models =>
          if models.any (fun list => !list.backendCanRun member.backend) = true then
            .error .backendMismatch
          else .ok (unit, models)
        | .blocked _ => .error .blockedWalk
        | .noUnit => .error .noUnit

/-! ### The pick -/

/-- The reason recorded for each position. -/
abbrev Reasons := Nat → Option SkipReason

/-- A real reason stands; the pin's gives way to it. -/
def record (reasons : Reasons) (index : Nat) (reason : SkipReason) : Reasons :=
  match reasons index with
  | none => Function.update reasons index (some reason)
  | some existing =>
    if existing = .notPinned ∧ reason ≠ .notPinned then
      Function.update reasons index (some reason)
    else reasons

/-- What a scan does with an entry it comes to. -/
inductive Verdict where
  | pass
  | skip (reason : SkipReason)
  | take (unit : WorkUnit) (declared : Option ModelList)

/-- An entry with its position, taken for a unit. -/
structure Taken where
  entry : EntryView
  index : Nat
  unit : WorkUnit
  declared : Option ModelList

/-- Go through entries up to the first one taken, and record why the others are
not. -/
def scan (judge : EntryView → Verdict) :
    List (EntryView × Nat) → Reasons → Reasons × Option Taken
  | [], reasons => (reasons, none)
  | (entry, index) :: rest, reasons =>
    match judge entry with
    | .pass => scan judge rest reasons
    | .skip reason => scan judge rest (record reasons index reason)
    | .take unit declared => (reasons, some ⟨entry, index, unit, declared⟩)

/-- Take an entry where it is eligible. -/
def judgeEligible (s : V2Snapshot) (member : Member) (entry : EntryView) : Verdict :=
  match eligible s member entry with
  | .ok (unit, declared) => .take unit declared
  | .error reason => .skip reason

/-- Take an eligible entry of a lane and, under a pin, of its project. -/
def judgeLane (s : V2Snapshot) (member : Member) (lane : Lane) (pin : Option String)
    (entry : EntryView) : Verdict :=
  if entry.lane ≠ lane then .pass
  else if pin.any (fun p => entry.project ≠ p) = true then .skip .notPinned
  else judgeEligible s member entry

def scanLane (s : V2Snapshot) (member : Member) (lane : Lane) (pin : Option String)
    (reasons : Reasons) : Reasons × Option Taken :=
  scan (judgeLane s member lane pin) s.entries.zipIdx reasons

/-- The entry is held by the member, and running or paused. -/
def EntryView.heldBy (member : Member) (entry : EntryView) : Bool :=
  entry.holder = some member.id ∧ entry.status.isStarted = true

/-- The member's own entries as step 2 tries them: the last active one, then the
paused ones, last first. -/
def ownOrder (s : V2Snapshot) (member : Member) : List (EntryView × Nat) :=
  let own := (s.entries.zipIdx.filter fun (entry, _) => entry.heldBy member).reverse
  (own.find? fun (entry, _) => entry.status = .active).toList ++
    own.filter fun (entry, _) => entry.status = .paused

def scanOwn (s : V2Snapshot) (member : Member) (reasons : Reasons) : Reasons × Option Taken :=
  scan (judgeEligible s member) (ownOrder s member) reasons

/-- A step of the pick, made where the ones before took nothing. -/
def orElse (done : Reasons × Option Taken) (step : Reasons → Reasons × Option Taken) :
    Reasons × Option Taken :=
  match done with
  | (reasons, some taken) => (reasons, some taken)
  | (reasons, none) => step reasons

/-- The fallback scans have no pin, and only a pinned member makes them. -/
def scanFallback (s : V2Snapshot) (member : Member) (lane : Lane) (reasons : Reasons) :
    Reasons × Option Taken :=
  if member.pin.isSome = true then scanLane s member lane none reasons else (reasons, none)

/-- The four steps: urgent in the pin, the member's own, normal in the pin, and
both lanes without the pin. -/
def pickSteps (s : V2Snapshot) (member : Member) : Reasons × Option Taken :=
  let urgent := scanLane s member .urgent member.pin fun _ => none
  let own := orElse urgent (scanOwn s member)
  let normal := orElse own (scanLane s member .normal member.pin)
  let anyUrgent := orElse normal (scanFallback s member .urgent)
  orElse anyUrgent (scanFallback s member .normal)

/-- The recorded reasons in file order. -/
def skipsOf (s : V2Snapshot) (reasons : Reasons) : List Skip :=
  s.entries.zipIdx.filterMap fun (entry, index) => (reasons index).map fun r => ⟨entry.id, r⟩

def pickV2 (s : V2Snapshot) (member : Member) : PickOutcome :=
  match pickSteps s member with
  | (reasons, none) => ⟨none, skipsOf s reasons⟩
  | (reasons, some taken) =>
    ⟨some ⟨taken.entry.id, taken.unit, taken.declared⟩,
      skipsOf s (Function.update reasons taken.index none)⟩

/-! ### The walk has no depth -/

theorem walkItems_congr {into into' : String → WalkOutcome} {milestone : String}
    {closeOut : WalkOutcome} {items : List ItemView}
    (h : ∀ item ∈ items, into (milestone ++ "/" ++ item.id) =
      into' (milestone ++ "/" ++ item.id)) :
    walkItems into milestone closeOut items = walkItems into' milestone closeOut items := by
  induction items with
  | nil => rfl
  | cons item items ih =>
    rw [List.forall_mem_cons] at h
    obtain ⟨hitem, hitems⟩ := h
    rw [walkItems, walkItems, ih hitems, hitem]

/-- The milestones of the trees whose name is as long as a given one. -/
def longerKeys (trees : AList fun _ : String => TreeView) (milestone : String) : Finset String :=
  trees.keys.toFinset.filter fun k => milestone.length ≤ k.length

theorem longerKeys_sub {trees : AList fun _ : String => TreeView} {milestone : String}
    {tree : TreeView} (h : trees.lookup milestone = some tree) (id : String) :
    (longerKeys trees (milestone ++ "/" ++ id)).card < (longerKeys trees milestone).card := by
  have hlength : milestone.length < (milestone ++ "/" ++ id).length := by
    rw [String.length_append, String.length_append]
    have : "/".length = 1 := rfl
    omega
  refine Finset.card_lt_card ⟨?_, ?_⟩
  · intro k hk
    obtain ⟨hk, hlong⟩ := Finset.mem_filter.mp hk
    exact Finset.mem_filter.mpr ⟨hk, by omega⟩
  · intro hsub
    have hmem : milestone ∈ longerKeys trees milestone := by
      refine Finset.mem_filter.mpr ⟨?_, le_refl _⟩
      rw [List.mem_toFinset, ← AList.mem_keys, ← AList.lookup_isSome, h]
      rfl
    have := (Finset.mem_filter.mp (hsub hmem)).2
    omega

theorem walkTree_fuel {trees : AList fun _ : String => TreeView} {fuel fuel' : Nat}
    {milestone : String} (hfuel : (longerKeys trees milestone).card < fuel)
    (hfuel' : (longerKeys trees milestone).card < fuel') :
    walkTree trees fuel milestone = walkTree trees fuel' milestone := by
  induction fuel generalizing fuel' milestone with
  | zero => omega
  | succ fuel ih =>
    cases fuel' with
    | zero => omega
    | succ fuel' =>
      rw [walkTree, walkTree]
      cases htree : trees.lookup milestone with
      | none => rfl
      | some tree =>
        refine walkItems_congr fun item _ => ?_
        have := longerKeys_sub htree item.id
        exact ih (by omega) (by omega)

/-- The walk is the recursion of the source. -/
theorem V2Snapshot.walk_eq (s : V2Snapshot) (milestone : String) :
    s.walk milestone =
      match s.trees.lookup milestone with
      | none => .noUnit
      | some tree =>
        walkItems s.walk milestone (.unit (.closeOut milestone) tree.models) tree.items := by
  rw [V2Snapshot.walk, walkTree]
  cases htree : s.trees.lookup milestone with
  | none => rfl
  | some tree =>
    refine walkItems_congr fun item _ => ?_
    have hsub := longerKeys_sub htree item.id
    have hall : (longerKeys s.trees milestone).card ≤ s.trees.keys.toFinset.card :=
      Finset.card_filter_le _ _
    exact walkTree_fuel (by omega) (by omega)

/-! ### What a scan takes -/

def Verdict.isTake : Verdict → Bool
  | .take _ _ => true
  | .pass | .skip _ => false

/-- The entry taken does not depend on the reasons recorded. -/
def firstTaken (judge : EntryView → Verdict) : List (EntryView × Nat) → Option Taken
  | [] => none
  | (entry, index) :: rest =>
    match judge entry with
    | .take unit declared => some ⟨entry, index, unit, declared⟩
    | .pass | .skip _ => firstTaken judge rest

theorem scan_taken {judge : EntryView → Verdict} {xs : List (EntryView × Nat)}
    {reasons : Reasons} : (scan judge xs reasons).2 = firstTaken judge xs := by
  induction xs generalizing reasons with
  | nil => rfl
  | cons x xs ih =>
    obtain ⟨entry, index⟩ := x
    rw [scan, firstTaken]
    cases judge entry with
    | pass => exact ih
    | skip reason => exact ih
    | take unit declared => rfl

theorem firstTaken_none {judge : EntryView → Verdict} {xs : List (EntryView × Nat)} :
    firstTaken judge xs = none ↔ ∀ x ∈ xs, (judge x.1).isTake = false := by
  induction xs with
  | nil => simp [firstTaken]
  | cons x xs ih =>
    obtain ⟨entry, index⟩ := x
    rw [firstTaken, List.forall_mem_cons]
    cases hjudge : judge entry with
    | pass => simpa [hjudge, Verdict.isTake] using ih
    | skip reason => simpa [hjudge, Verdict.isTake] using ih
    | take unit declared => simp [Verdict.isTake]

theorem firstTaken_some {judge : EntryView → Verdict} {xs : List (EntryView × Nat)} {t : Taken}
    (h : firstTaken judge xs = some t) :
    judge t.entry = .take t.unit t.declared ∧
      xs.find? (fun x => (judge x.1).isTake) = some (t.entry, t.index) := by
  induction xs with
  | nil => cases h
  | cons x xs ih =>
    obtain ⟨entry, index⟩ := x
    rw [firstTaken] at h
    cases hjudge : judge entry with
    | pass =>
      simp only [hjudge] at h
      rw [List.find?_cons_of_neg (by simp [hjudge, Verdict.isTake])]
      exact ih h
    | skip reason =>
      simp only [hjudge] at h
      rw [List.find?_cons_of_neg (by simp [hjudge, Verdict.isTake])]
      exact ih h
    | take unit declared =>
      simp only [hjudge, Option.some.injEq] at h
      subst h
      exact ⟨hjudge, List.find?_cons_of_pos (by simp [hjudge, Verdict.isTake])⟩

section pick

variable {s : V2Snapshot} {member : Member}

theorem eligible_ne_notPinned {entry : EntryView} :
    eligible s member entry ≠ .error .notPinned := by
  intro h
  rw [eligible] at h
  split at h
  · cases h
  split at h
  · cases h
  split at h
  · cases h
  split at h
  · cases h
  split at h
  · cases h
  split at h
  · cases h
  split at h
  · split at h <;> cases h
  · cases h
  · cases h

/-- The entry can be taken by the member. -/
def EntryView.isEligible (s : V2Snapshot) (member : Member) (entry : EntryView) : Bool :=
  (eligible s member entry).isOk

/-- The entry is in the project of the pin, if there is one. -/
def EntryView.inPin (pin : Option String) (entry : EntryView) : Bool :=
  pin.all fun p => entry.project = p

theorem judgeEligible_isTake {entry : EntryView} :
    (judgeEligible s member entry).isTake = entry.isEligible s member := by
  rw [judgeEligible, EntryView.isEligible]
  cases eligible s member entry with
  | ok v => rfl
  | error reason => rfl

theorem judgeEligible_take {entry : EntryView} {unit : WorkUnit} {declared : Option ModelList}
    (h : judgeEligible s member entry = .take unit declared) :
    eligible s member entry = .ok (unit, declared) := by
  rw [judgeEligible] at h
  cases heligible : eligible s member entry with
  | error reason => simp [heligible] at h
  | ok v =>
    simp only [heligible, Verdict.take.injEq] at h
    rw [← h.1, ← h.2]

theorem judgeEligible_skip {entry : EntryView} {reason : SkipReason} :
    judgeEligible s member entry = .skip reason ↔ eligible s member entry = .error reason := by
  rw [judgeEligible]
  cases eligible s member entry with
  | ok v => simp
  | error reason' => simp

theorem judgeLane_isTake {lane : Lane} {pin : Option String} {entry : EntryView} :
    (judgeLane s member lane pin entry).isTake =
      (decide (entry.lane = lane) && entry.inPin pin && entry.isEligible s member) := by
  rw [judgeLane, EntryView.inPin]
  by_cases hlane : entry.lane = lane
  · rw [if_neg (not_not.mpr hlane)]
    cases pin with
    | none => simp [hlane, judgeEligible_isTake]
    | some p =>
      by_cases hpin : entry.project = p
      · simp [hlane, hpin, judgeEligible_isTake]
      · simp [hlane, hpin, Verdict.isTake]
  · simp [hlane, Verdict.isTake]

theorem judgeLane_take {lane : Lane} {pin : Option String} {entry : EntryView} {unit : WorkUnit}
    {declared : Option ModelList} (h : judgeLane s member lane pin entry = .take unit declared) :
    eligible s member entry = .ok (unit, declared) := by
  rw [judgeLane] at h
  split at h
  · cases h
  · split at h
    · cases h
    · exact judgeEligible_take h

theorem judgeLane_skip {lane : Lane} {pin : Option String} {entry : EntryView}
    {reason : SkipReason} (h : judgeLane s member lane pin entry = .skip reason) :
    reason = .notPinned ∨ eligible s member entry = .error reason := by
  rw [judgeLane] at h
  split at h
  · cases h
  · split at h
    · exact Or.inl (Verdict.skip.inj h).symm
    · exact Or.inr (judgeEligible_skip.mp h)

/-! ### The reasons -/

/-- Each reason belongs to an entry, and is the pin's or its own. -/
def Sound (s : V2Snapshot) (member : Member) (reasons : Reasons) : Prop :=
  ∀ i reason, reasons i = some reason → ∃ e, s.entries[i]? = some e ∧
    (reason = .notPinned ∨ eligible s member e = .error reason)

/-- The reason of a position is why its entry is not eligible. -/
def Exact (s : V2Snapshot) (member : Member) (reasons : Reasons) (i : Nat) : Prop :=
  ∃ e reason, s.entries[i]? = some e ∧ reasons i = some reason ∧
    eligible s member e = .error reason

/-- What a scan may judge: entries at their positions, each skipped for the pin
or for its own reason. -/
structure Judges (s : V2Snapshot) (member : Member) (judge : EntryView → Verdict)
    (xs : List (EntryView × Nat)) : Prop where
  positions : ∀ x ∈ xs, s.entries[x.2]? = some x.1
  reasons : ∀ x ∈ xs, ∀ reason, judge x.1 = .skip reason →
    reason = .notPinned ∨ eligible s member x.1 = .error reason

theorem Judges.tail {judge : EntryView → Verdict} {x : EntryView × Nat}
    {xs : List (EntryView × Nat)} (h : Judges s member judge (x :: xs)) :
    Judges s member judge xs where
  positions := fun y hy => h.positions y (List.mem_cons_of_mem _ hy)
  reasons := fun y hy => h.reasons y (List.mem_cons_of_mem _ hy)

/-- Recording sets the reason, or leaves all as they are. -/
theorem record_cases (reasons : Reasons) (i : Nat) (reason : SkipReason) :
    record reasons i reason = Function.update reasons i (some reason) ∧
        (∀ r, reasons i = some r → r = .notPinned) ∨
      record reasons i reason = reasons ∧
        ∃ r, reasons i = some r ∧ (r ≠ .notPinned ∨ reason = .notPinned) := by
  rw [record]
  cases h : reasons i with
  | none => exact Or.inl ⟨rfl, by simp⟩
  | some r =>
    by_cases hr : r = .notPinned ∧ reason ≠ .notPinned
    · simp only [if_pos hr]
      refine Or.inl ⟨trivial, ?_⟩
      intro r' hr'
      rw [← Option.some.inj hr']
      exact hr.1
    · simp only [if_neg hr]
      refine Or.inr ⟨trivial, r, rfl, ?_⟩
      by_cases hpin : r = .notPinned
      · exact Or.inr (not_not.mp fun h => hr ⟨hpin, h⟩)
      · exact Or.inl hpin

theorem record_sound {reasons : Reasons} (hsound : Sound s member reasons) {i : Nat}
    {e : EntryView} {reason : SkipReason} (he : s.entries[i]? = some e)
    (hreason : reason = .notPinned ∨ eligible s member e = .error reason) :
    Sound s member (record reasons i reason) := by
  rcases record_cases reasons i reason with
    ⟨hrecord, -⟩ | ⟨hrecord, -⟩
  · rw [hrecord]
    intro j r hj
    by_cases hij : j = i
    · subst hij
      rw [Function.update_self] at hj
      obtain rfl := Option.some.inj hj
      exact ⟨e, he, hreason⟩
    · rw [Function.update_of_ne hij] at hj
      exact hsound j r hj
  · rwa [hrecord]

theorem record_exact {reasons : Reasons} (hsound : Sound s member reasons) {i : Nat}
    {e : EntryView} {reason : SkipReason} (he : s.entries[i]? = some e)
    (hreason : eligible s member e = .error reason) :
    Exact s member (record reasons i reason) i := by
  have hreal : reason ≠ .notPinned := by
    rintro rfl
    exact eligible_ne_notPinned hreason
  rcases record_cases reasons i reason with
    ⟨hrecord, -⟩ | ⟨hrecord, r, hr, hor⟩
  · rw [hrecord]
    exact ⟨e, reason, he, Function.update_self _ _ _, hreason⟩
  · rw [hrecord]
    obtain ⟨e', he', hown⟩ := hsound i r hr
    obtain rfl : e = e' := Option.some.inj (he.symm.trans he')
    refine ⟨e, r, he, hr, hown.resolve_left ?_⟩
    rcases hor with hor | hor
    · exact hor
    · exact absurd hor hreal

theorem record_keeps_exact {reasons : Reasons} {i j : Nat} {reason : SkipReason}
    (h : Exact s member reasons j) : Exact s member (record reasons i reason) j := by
  obtain ⟨e, r, he, hr, hown⟩ := h
  rcases record_cases reasons i reason with
    ⟨hrecord, hpin⟩ | ⟨hrecord, -⟩
  · have hij : j ≠ i := by
      rintro rfl
      rw [hpin r hr] at hown
      exact eligible_ne_notPinned hown
    rw [hrecord]
    exact ⟨e, r, he, by rwa [Function.update_of_ne hij], hown⟩
  · rw [hrecord]
    exact ⟨e, r, he, hr, hown⟩

theorem scan_sound {judge : EntryView → Verdict} {xs : List (EntryView × Nat)}
    (hjudges : Judges s member judge xs) {reasons : Reasons} (hsound : Sound s member reasons) :
    Sound s member (scan judge xs reasons).1 := by
  induction xs generalizing reasons with
  | nil => exact hsound
  | cons x xs ih =>
    obtain ⟨entry, index⟩ := x
    rw [scan]
    cases hjudge : judge entry with
    | pass => exact ih hjudges.tail hsound
    | skip reason =>
      have hposition := hjudges.positions _ List.mem_cons_self
      have hreason := hjudges.reasons _ List.mem_cons_self reason hjudge
      exact ih hjudges.tail (record_sound hsound hposition hreason)
    | take unit declared => exact hsound

theorem scan_keeps_exact {judge : EntryView → Verdict} {xs : List (EntryView × Nat)}
    {reasons : Reasons} {j : Nat} (h : Exact s member reasons j) :
    Exact s member (scan judge xs reasons).1 j := by
  induction xs generalizing reasons with
  | nil => exact h
  | cons x xs ih =>
    obtain ⟨entry, index⟩ := x
    rw [scan]
    cases judge entry with
    | pass => exact ih h
    | skip reason => exact ih (record_keeps_exact h)
    | take unit declared => exact h

/-- A scan that takes nothing leaves the reason of each entry it judged not
eligible. -/
theorem scan_exact {judge : EntryView → Verdict} {xs : List (EntryView × Nat)}
    (hjudges : Judges s member judge xs) {reasons : Reasons} (hsound : Sound s member reasons)
    (hnone : (scan judge xs reasons).2 = none) {x : EntryView × Nat} (hx : x ∈ xs)
    (hjudge : judge x.1 = judgeEligible s member x.1) :
    Exact s member (scan judge xs reasons).1 x.2 := by
  induction xs generalizing reasons with
  | nil => cases hx
  | cons y xs ih =>
    obtain ⟨entry, index⟩ := y
    have hposition := hjudges.positions _ List.mem_cons_self
    rw [scan] at hnone ⊢
    cases hentry : judge entry with
    | take unit declared => simp [hentry] at hnone
    | pass =>
      simp only [hentry] at hnone ⊢
      rcases List.mem_cons.mp hx with rfl | hx
      · rw [hentry, judgeEligible] at hjudge
        split at hjudge <;> cases hjudge
      · exact ih hjudges.tail hsound hnone hx
    | skip reason =>
      simp only [hentry] at hnone ⊢
      have hreason := hjudges.reasons _ List.mem_cons_self reason hentry
      rcases List.mem_cons.mp hx with rfl | hx
      · rw [hentry] at hjudge
        exact scan_keeps_exact (record_exact hsound hposition (judgeEligible_skip.mp hjudge.symm))
      · exact ih hjudges.tail (record_sound hsound hposition hreason) hnone hx

theorem laneJudges {lane : Lane} {pin : Option String} :
    Judges s member (judgeLane s member lane pin) s.entries.zipIdx where
  positions := fun _ hx => List.mem_zipIdx_iff_getElem?.mp hx
  reasons := fun _ _ _ h => judgeLane_skip h

theorem mem_ownOrder {x : EntryView × Nat} (h : x ∈ ownOrder s member) : x ∈ s.entries.zipIdx := by
  rw [ownOrder, List.mem_append, Option.mem_toList] at h
  rcases h with h | h
  · exact List.mem_of_mem_filter (List.mem_reverse.mp (List.mem_of_find?_eq_some h))
  · exact List.mem_of_mem_filter (List.mem_reverse.mp (List.mem_of_mem_filter h))

theorem ownJudges : Judges s member (judgeEligible s member) (ownOrder s member) where
  positions := fun _ hx => List.mem_zipIdx_iff_getElem?.mp (mem_ownOrder hx)
  reasons := fun _ _ _ h => Or.inr (judgeEligible_skip.mp h)

/-! ### The steps together -/

theorem orElse_taken {done : Reasons × Option Taken} {step : Reasons → Reasons × Option Taken} :
    (orElse done step).2 = done.2.or (step done.1).2 := by
  obtain ⟨reasons, taken⟩ := done
  cases taken with
  | none => rfl
  | some t => rfl

/-- What a step keeps of the reasons, the steps up to it keep. -/
theorem orElse_keeps {P : Reasons → Prop} {done : Reasons × Option Taken}
    {step : Reasons → Reasons × Option Taken} (hdone : P done.1)
    (hstep : ∀ reasons, P reasons → P (step reasons).1) : P (orElse done step).1 := by
  obtain ⟨reasons, taken⟩ := done
  cases taken with
  | none => exact hstep reasons hdone
  | some t => exact hdone

/-- Where nothing is taken, the last step ran on the reasons of those before. -/
theorem orElse_none {done : Reasons × Option Taken} {step : Reasons → Reasons × Option Taken}
    (h : (orElse done step).2 = none) :
    done.2 = none ∧ (step done.1).2 = none ∧ (orElse done step).1 = (step done.1).1 := by
  obtain ⟨reasons, taken⟩ := done
  cases taken with
  | none => exact ⟨rfl, h, rfl⟩
  | some t => cases h

theorem scanLane_sound (lane : Lane) (pin : Option String) {reasons : Reasons}
    (h : Sound s member reasons) : Sound s member (scanLane s member lane pin reasons).1 :=
  scan_sound laneJudges h

theorem scanOwn_sound {reasons : Reasons} (h : Sound s member reasons) :
    Sound s member (scanOwn s member reasons).1 :=
  scan_sound ownJudges h

theorem scanLane_exact {lane : Lane} {pin : Option String} {reasons : Reasons}
    (hsound : Sound s member reasons) (hnone : (scanLane s member lane pin reasons).2 = none)
    {i : Nat} {e : EntryView} (he : s.entries[i]? = some e) (hlane : e.lane = lane)
    (hpin : e.inPin pin = true) : Exact s member (scanLane s member lane pin reasons).1 i := by
  refine scan_exact (x := (e, i)) laneJudges hsound hnone (List.mem_zipIdx_iff_getElem?.mpr he) ?_
  rw [judgeLane, if_neg (not_not.mpr hlane)]
  cases pin with
  | none => rfl
  | some p =>
    simp only [EntryView.inPin, Option.all_some, decide_eq_true_eq] at hpin
    simp [hpin]

/-- Nothing picked leaves the exact reason of every entry. -/
theorem pickSteps_exact (hnone : (pickSteps s member).2 = none) {i : Nat} {e : EntryView}
    (he : s.entries[i]? = some e) : Exact s member (pickSteps s member).1 i := by
  have hlane (lane : Lane) (pin : Option String) (reasons : Reasons)
      (h : Exact s member reasons i) : Exact s member (scanLane s member lane pin reasons).1 i :=
    scan_keeps_exact h
  have hfallback (lane : Lane) (reasons : Reasons) (h : Exact s member reasons i) :
      Exact s member (scanFallback s member lane reasons).1 i := by
    rw [scanFallback]
    split
    · exact hlane _ _ _ h
    · exact h
  have hempty : Sound s member fun _ => none := fun _ _ h => by cases h
  have hkeep {done : Reasons × Option Taken} {step : Reasons → Reasons × Option Taken}
      (hdone : Exact s member done.1 i)
      (hstep : ∀ reasons, Exact s member reasons i → Exact s member (step reasons).1 i) :
      Exact s member (orElse done step).1 i :=
    orElse_keeps (P := fun reasons => Exact s member reasons i) hdone hstep
  simp only [pickSteps] at hnone ⊢
  obtain ⟨hnone, hlast, heq⟩ := orElse_none hnone
  obtain ⟨hnone, hfourth, heq'⟩ := orElse_none hnone
  obtain ⟨hnone, hthird, heq''⟩ := orElse_none hnone
  obtain ⟨hfirst, -, -⟩ := orElse_none hnone
  have hown : Sound s member
      (orElse (scanLane s member .urgent member.pin fun _ => none) (scanOwn s member)).1 :=
    orElse_keeps (scanLane_sound _ _ hempty) fun _ => scanOwn_sound
  cases hpin : member.pin with
  | none =>
    have hany : e.inPin member.pin = true := by
      rw [hpin]
      rfl
    rw [← hpin]
    refine hkeep (hkeep ?_ (hfallback _)) (hfallback _)
    cases hl : e.lane with
    | urgent =>
      refine hkeep (hkeep ?_ ?_) (hlane _ _)
      · exact scanLane_exact hempty hfirst he hl hany
      · exact fun _ h => scan_keeps_exact h
    | normal =>
      rw [heq'']
      exact scanLane_exact hown hthird he hl hany
  | some p =>
    have hpinned : member.pin.isSome = true := by
      rw [hpin]
      rfl
    have hthirds : Sound s member _ := orElse_keeps hown fun _ h =>
      scanLane_sound .normal member.pin h
    rw [← hpin]
    cases hl : e.lane with
    | urgent =>
      refine hkeep ?_ (hfallback _)
      rw [heq', scanFallback, if_pos hpinned]
      rw [scanFallback, if_pos hpinned] at hfourth
      exact scanLane_exact hthirds hfourth he hl rfl
    | normal =>
      rw [heq]
      have hfourths : Sound s member _ :=
        orElse_keeps hthirds fun reasons h => by
          show Sound s member (scanFallback s member .urgent reasons).1
          rw [scanFallback, if_pos hpinned]
          exact scanLane_sound _ _ h
      rw [scanFallback, if_pos hpinned]
      rw [scanFallback, if_pos hpinned] at hlast
      exact scanLane_exact hfourths hlast he hl rfl

/-- What a scan of a lane takes. -/
def laneTaken (s : V2Snapshot) (member : Member) (lane : Lane) (pin : Option String) :
    Option Taken :=
  firstTaken (judgeLane s member lane pin) s.entries.zipIdx

/-- What the member's own step takes. -/
def ownTaken (s : V2Snapshot) (member : Member) : Option Taken :=
  firstTaken (judgeEligible s member) (ownOrder s member)

/-- What a fallback scan takes. -/
def fallbackTaken (s : V2Snapshot) (member : Member) (lane : Lane) : Option Taken :=
  if member.pin.isSome = true then laneTaken s member lane none else none

theorem scanFallback_taken {lane : Lane} {reasons : Reasons} :
    (scanFallback s member lane reasons).2 = fallbackTaken s member lane := by
  rw [scanFallback, fallbackTaken]
  split
  · exact scan_taken
  · rfl

theorem pickSteps_taken :
    (pickSteps s member).2 =
      ((((laneTaken s member .urgent member.pin).or (ownTaken s member)).or
        (laneTaken s member .normal member.pin)).or (fallbackTaken s member .urgent)).or
        (fallbackTaken s member .normal) := by
  simp only [pickSteps, orElse_taken, scanFallback_taken, scanLane, scanOwn, scan_taken, laneTaken,
    ownTaken]

theorem laneTaken_some {lane : Lane} {pin : Option String} {t : Taken}
    (h : laneTaken s member lane pin = some t) :
    s.entries[t.index]? = some t.entry ∧
      eligible s member t.entry = .ok (t.unit, t.declared) := by
  obtain ⟨htake, hfind⟩ := firstTaken_some h
  have hmem := List.mem_of_find?_eq_some hfind
  exact ⟨List.mem_zipIdx_iff_getElem?.mp hmem, judgeLane_take htake⟩

theorem ownTaken_some {t : Taken} (h : ownTaken s member = some t) :
    s.entries[t.index]? = some t.entry ∧
      eligible s member t.entry = .ok (t.unit, t.declared) := by
  obtain ⟨htake, hfind⟩ := firstTaken_some h
  have hmem := mem_ownOrder (List.mem_of_find?_eq_some hfind)
  exact ⟨List.mem_zipIdx_iff_getElem?.mp hmem, judgeEligible_take htake⟩

theorem fallbackTaken_some {lane : Lane} {t : Taken}
    (h : fallbackTaken s member lane = some t) : laneTaken s member lane none = some t := by
  rw [fallbackTaken] at h
  split at h
  · exact h
  · cases h

/-- The entry picked is eligible with the unit and the models reported. -/
theorem pickSteps_some {t : Taken} (h : (pickSteps s member).2 = some t) :
    s.entries[t.index]? = some t.entry ∧
      eligible s member t.entry = .ok (t.unit, t.declared) := by
  rw [pickSteps_taken] at h
  rcases Option.or_eq_some_iff.mp h with h | ⟨-, h⟩
  · rcases Option.or_eq_some_iff.mp h with h | ⟨-, h⟩
    · rcases Option.or_eq_some_iff.mp h with h | ⟨-, h⟩
      · rcases Option.or_eq_some_iff.mp h with h | ⟨-, h⟩
        · exact laneTaken_some h
        · exact ownTaken_some h
      · exact laneTaken_some h
    · exact laneTaken_some (fallbackTaken_some h)
  · exact laneTaken_some (fallbackTaken_some h)

/-! ### The order of preference -/

theorem firstTaken_entry {judge : EntryView → Verdict} {xs : List (EntryView × Nat)} :
    (firstTaken judge xs).map (·.entry) =
      (xs.map Prod.fst).find? fun e => (judge e).isTake := by
  induction xs with
  | nil => rfl
  | cons x xs ih =>
    obtain ⟨entry, index⟩ := x
    rw [firstTaken, List.map_cons]
    cases hjudge : judge entry with
    | pass => rw [List.find?_cons_of_neg (by simp [hjudge, Verdict.isTake]), ih]
    | skip reason => rw [List.find?_cons_of_neg (by simp [hjudge, Verdict.isTake]), ih]
    | take unit declared =>
      rw [List.find?_cons_of_pos (by simp [hjudge, Verdict.isTake])]
      rfl

/-- The first eligible entry of a lane in file order, in the project of a pin. -/
def V2Snapshot.firstEligible (s : V2Snapshot) (member : Member) (lane : Lane)
    (pin : Option String) : Option EntryView :=
  s.entries.find? fun e => decide (e.lane = lane) && e.inPin pin && e.isEligible s member

theorem laneTaken_entry {lane : Lane} {pin : Option String} :
    (laneTaken s member lane pin).map (·.entry) = s.firstEligible member lane pin := by
  rw [laneTaken, firstTaken_entry, List.zipIdx_map_fst, V2Snapshot.firstEligible]
  exact congrArg (fun p => s.entries.find? p) (funext fun e => judgeLane_isTake)

/-- The last entry in file order that the member holds active. -/
def V2Snapshot.lastActive (s : V2Snapshot) (member : Member) : Option EntryView :=
  s.entries.reverse.find? fun e => e.heldBy member && decide (e.status = .active)

/-- The entry is one the member resumes: paused by it, or its last active one. -/
def EntryView.Resumable (s : V2Snapshot) (member : Member) (e : EntryView) : Prop :=
  s.lastActive member = some e ∨
    e ∈ s.entries ∧ e.holder = some member.id ∧ e.status = .paused

theorem ownOrder_entries :
    (ownOrder s member).map Prod.fst = (s.lastActive member).toList ++
      (s.entries.filter fun e => e.heldBy member).reverse.filter
        fun e => decide (e.status = .paused) := by
  have hown : (s.entries.zipIdx.filter fun (entry, _) => entry.heldBy member).reverse.map Prod.fst =
      (s.entries.filter fun e => e.heldBy member).reverse := by
    conv_rhs => rw [← List.zipIdx_map_fst 0 s.entries, List.filter_map, ← List.map_reverse]
    rfl
  have hlast : s.lastActive member =
      (s.entries.filter fun e => e.heldBy member).reverse.find?
        fun e => decide (e.status = .active) := by
    rw [← List.filter_reverse, List.find?_filter, V2Snapshot.lastActive]
    simp only [Bool.decide_and, Bool.decide_eq_true]
  rw [ownOrder, List.map_append, hlast, ← hown]
  congr 1
  · rw [List.find?_map, Option.toList_map]
    rfl
  · rw [List.filter_map]
    rfl

theorem mem_ownOrder_entries {e : EntryView} :
    e ∈ (ownOrder s member).map Prod.fst ↔ e.Resumable s member := by
  rw [ownOrder_entries, List.mem_append, Option.mem_toList, EntryView.Resumable]
  refine or_congr Iff.rfl ?_
  simp only [List.mem_filter, List.mem_reverse, EntryView.heldBy, decide_eq_true_eq]
  constructor
  · rintro ⟨⟨hmem, hholder, -⟩, hstatus⟩
    exact ⟨hmem, hholder, hstatus⟩
  · rintro ⟨hmem, hholder, hstatus⟩
    refine ⟨⟨hmem, hholder, ?_⟩, hstatus⟩
    rw [hstatus]
    rfl

theorem ownTaken_none :
    ownTaken s member = none ↔ ∀ e : EntryView, e.Resumable s member → e.isEligible s member = false := by
  rw [ownTaken, firstTaken_none]
  constructor
  · intro h e he
    obtain ⟨x, hx, rfl⟩ := List.mem_map.mp (mem_ownOrder_entries.mpr he)
    rw [← judgeEligible_isTake]
    exact h x hx
  · intro h x hx
    rw [judgeEligible_isTake]
    exact h x.1 (mem_ownOrder_entries.mp (List.mem_map.mpr ⟨x, hx, rfl⟩))

theorem ownTaken_resumable {t : Taken} (h : ownTaken s member = some t) :
    t.entry.Resumable s member := by
  obtain ⟨-, hfind⟩ := firstTaken_some h
  exact mem_ownOrder_entries.mp (List.mem_map.mpr ⟨_, List.mem_of_find?_eq_some hfind, rfl⟩)

/-! ### The report -/

theorem filterMap_sublist {α β : Type} {f : α → Option β} {g : α → β}
    (h : ∀ a b, f a = some b → b = g a) (l : List α) : (l.filterMap f).Sublist (l.map g) := by
  induction l with
  | nil => exact .slnil
  | cons a l ih =>
    rw [List.map_cons]
    cases ha : f a with
    | none =>
      rw [List.filterMap_cons_none ha]
      exact .cons _ ih
    | some b =>
      rw [List.filterMap_cons_some ha, h a b ha]
      exact .cons_cons _ ih

theorem skipsOf_entries {reasons : Reasons} :
    ((skipsOf s reasons).map (·.entry)).Sublist (s.entries.map (·.id)) := by
  have hids : s.entries.map (·.id) = s.entries.zipIdx.map fun x => x.1.id := by
    conv_lhs => rw [← List.zipIdx_map_fst 0 s.entries, List.map_map]
    rfl
  rw [skipsOf, List.map_filterMap, hids]
  refine filterMap_sublist ?_ _
  rintro ⟨e, i⟩ id h
  cases hr : reasons i with
  | none => simp [hr] at h
  | some r =>
    simp only [hr, Option.map_some, Option.some.injEq] at h
    exact h.symm

theorem mem_skipsOf {reasons : Reasons} {k : Skip} (h : k ∈ skipsOf s reasons) :
    ∃ e i, s.entries[i]? = some e ∧ k.entry = e.id ∧ reasons i = some k.reason := by
  obtain ⟨⟨e, i⟩, hmem, hk⟩ := List.mem_filterMap.mp h
  obtain ⟨r, hr, rfl⟩ := Option.map_eq_some_iff.mp hk
  exact ⟨e, i, List.mem_zipIdx_iff_getElem?.mp hmem, rfl, hr⟩

theorem skipsOf_exact {reasons : Reasons}
    (h : ∀ i e, s.entries[i]? = some e → Exact s member reasons i) :
    List.Forall₂ (fun e k => k.entry = e.id ∧ eligible s member e = .error k.reason) s.entries
      (skipsOf s reasons) := by
  have hpairs : ∀ x ∈ s.entries.zipIdx, ∃ r, reasons x.2 = some r ∧
      eligible s member x.1 = .error r := by
    intro x hx
    have hx := List.mem_zipIdx_iff_getElem?.mp hx
    obtain ⟨e, r, he, hr, hown⟩ := h x.2 x.1 hx
    obtain rfl : x.1 = e := Option.some.inj (hx.symm.trans he)
    exact ⟨r, hr, hown⟩
  rw [skipsOf]
  generalize hl : s.entries = l at hpairs ⊢
  clear hl h
  generalize 0 = n at hpairs ⊢
  induction l generalizing n with
  | nil => exact .nil
  | cons e l ih =>
    rw [List.zipIdx_cons, List.forall_mem_cons] at hpairs
    obtain ⟨⟨r, hr, hown⟩, hrest⟩ := hpairs
    rw [List.zipIdx_cons, List.filterMap_cons_some (b := ⟨e.id, r⟩) (by simp [hr])]
    exact .cons ⟨rfl, hown⟩ (ih _ hrest)

/-! ### The pick is exact -/

/-- Ids and project names differ, and urgent entries come first. -/
structure V2Snapshot.Valid (s : V2Snapshot) : Prop where
  idsDistinct : (s.entries.map (·.id)).Nodup
  projectsDistinct : (s.projects.map (·.name)).Nodup
  urgentFirst : s.entries.Pairwise fun a b => a.lane = .normal → b.lane ≠ .urgent

/-- The outcome assigns the entry. -/
def PickOutcome.Picks (out : PickOutcome) (e : EntryView) : Prop :=
  ∃ p, out.picked = some p ∧ p.entry = e.id

/-- What the pick prefers: urgent in the pin, then what the member resumes, then
normal in the pin, then urgent and normal anywhere. -/
structure PriorityLaw (s : V2Snapshot) (member : Member) (out : PickOutcome) : Prop where
  urgentPinned : ∀ e, s.firstEligible member .urgent member.pin = some e → out.Picks e
  resumed : s.firstEligible member .urgent member.pin = none →
    (∃ e, EntryView.Resumable s member e ∧ e.isEligible s member = true) →
    ∃ e, EntryView.Resumable s member e ∧ e.isEligible s member = true ∧ out.Picks e
  normalPinned : s.firstEligible member .urgent member.pin = none →
    (∀ e, EntryView.Resumable s member e → e.isEligible s member = false) →
    ∀ e, s.firstEligible member .normal member.pin = some e → out.Picks e
  urgentAnywhere : s.firstEligible member .urgent member.pin = none →
    (∀ e, EntryView.Resumable s member e → e.isEligible s member = false) →
    s.firstEligible member .normal member.pin = none →
    ∀ e, s.firstEligible member .urgent none = some e → out.Picks e
  normalAnywhere : s.firstEligible member .urgent member.pin = none →
    (∀ e, EntryView.Resumable s member e → e.isEligible s member = false) →
    s.firstEligible member .normal member.pin = none →
    s.firstEligible member .urgent none = none →
    ∀ e, s.firstEligible member .normal none = some e → out.Picks e

theorem pickV2_none (h : (pickSteps s member).2 = none) :
    pickV2 s member = ⟨none, skipsOf s (pickSteps s member).1⟩ := by
  rw [pickV2]
  split
  · rename_i heq
    rw [heq]
  · rename_i heq
    rw [heq] at h
    cases h

theorem pickV2_some {t : Taken} (h : (pickSteps s member).2 = some t) :
    pickV2 s member = ⟨some ⟨t.entry.id, t.unit, t.declared⟩,
      skipsOf s (Function.update (pickSteps s member).1 t.index none)⟩ := by
  rw [pickV2]
  split
  · rename_i heq
    rw [heq] at h
    cases h
  · rename_i heq
    rw [heq] at h ⊢
    obtain rfl := Option.some.inj h
    rfl

theorem picks_of_taken {t : Taken} (h : (pickSteps s member).2 = some t) :
    (pickV2 s member).Picks t.entry := by
  rw [pickV2_some h]
  exact ⟨_, rfl, rfl⟩

theorem laneTaken_none {lane : Lane} {pin : Option String} :
    laneTaken s member lane pin = none ↔ s.firstEligible member lane pin = none := by
  rw [← laneTaken_entry, Option.map_eq_none_iff]

theorem laneTaken_of_first {lane : Lane} {pin : Option String} {e : EntryView}
    (h : s.firstEligible member lane pin = some e) :
    ∃ t, laneTaken s member lane pin = some t ∧ t.entry = e := by
  rw [← laneTaken_entry] at h
  exact Option.map_eq_some_iff.mp h

/-- Under a pin the fallback scans its lane; without one the lane was scanned. -/
theorem fallbackTaken_of_first {lane : Lane} {e : EntryView}
    (hpin : s.firstEligible member lane member.pin = none)
    (h : s.firstEligible member lane none = some e) :
    ∃ t, fallbackTaken s member lane = some t ∧ t.entry = e := by
  cases hp : member.pin with
  | none => simp [hp, h] at hpin
  | some p =>
    rw [fallbackTaken, hp]
    exact laneTaken_of_first h

theorem fallbackTaken_none {lane : Lane} (h : s.firstEligible member lane none = none) :
    fallbackTaken s member lane = none := by
  rw [fallbackTaken, laneTaken_none.mpr h, ite_self]

theorem pickV2_priority : PriorityLaw s member (pickV2 s member) where
  urgentPinned e he := by
    obtain ⟨t, ht, rfl⟩ := laneTaken_of_first he
    apply picks_of_taken
    rw [pickSteps_taken, ht]
    rfl
  resumed hurgent := by
    rintro ⟨e, hresumable, heligible⟩
    cases hown : ownTaken s member with
    | none => simp [ownTaken_none.mp hown e hresumable] at heligible
    | some t =>
      have hpick : (pickSteps s member).2 = some t := by
        rw [pickSteps_taken, laneTaken_none.mpr hurgent, hown]
        rfl
      refine ⟨t.entry, ownTaken_resumable hown, ?_, picks_of_taken hpick⟩
      rw [EntryView.isEligible, (ownTaken_some hown).2]
      rfl
  normalPinned hurgent hown e he := by
    obtain ⟨t, ht, rfl⟩ := laneTaken_of_first he
    apply picks_of_taken
    rw [pickSteps_taken, laneTaken_none.mpr hurgent, ownTaken_none.mpr hown, ht]
    rfl
  urgentAnywhere hurgent hown hnormal e he := by
    obtain ⟨t, ht, rfl⟩ := fallbackTaken_of_first hurgent he
    apply picks_of_taken
    rw [pickSteps_taken, laneTaken_none.mpr hurgent, ownTaken_none.mpr hown,
      laneTaken_none.mpr hnormal, ht]
    rfl
  normalAnywhere hurgent hown hnormal hany e he := by
    obtain ⟨t, ht, rfl⟩ := fallbackTaken_of_first hnormal he
    apply picks_of_taken
    rw [pickSteps_taken, laneTaken_none.mpr hurgent, ownTaken_none.mpr hown,
      laneTaken_none.mpr hnormal, fallbackTaken_none hany, ht]
    rfl

theorem pickV2_eligible {p : Pick} (h : (pickV2 s member).picked = some p) :
    ∃ e ∈ s.entries, e.id = p.entry ∧ eligible s member e = .ok (p.unit, p.declared) := by
  cases ht : (pickSteps s member).2 with
  | none =>
    rw [pickV2_none ht] at h
    cases h
  | some t =>
    rw [pickV2_some ht] at h
    obtain rfl := Option.some.inj h
    obtain ⟨hposition, heligible⟩ := pickSteps_some ht
    exact ⟨t.entry, List.mem_of_getElem? hposition, rfl, heligible⟩

/-- Where nothing is picked, every entry is reported with its reason. -/
theorem pickV2_reports (h : (pickV2 s member).picked = none) :
    List.Forall₂ (fun e k => k.entry = e.id ∧ eligible s member e = .error k.reason) s.entries
      (pickV2 s member).skips := by
  cases ht : (pickSteps s member).2 with
  | some t =>
    rw [pickV2_some ht] at h
    cases h
  | none =>
    rw [pickV2_none ht]
    exact skipsOf_exact fun i e he => pickSteps_exact ht he

theorem pickV2_none_iff :
    (pickV2 s member).picked = none ↔ ∀ e ∈ s.entries, e.isEligible s member = false := by
  constructor
  · intro h e he
    cases ht : (pickSteps s member).2 with
    | some t =>
      rw [pickV2_some ht] at h
      cases h
    | none =>
      obtain ⟨i, hi⟩ := List.mem_iff_getElem?.mp he
      obtain ⟨e', reason, he', -, hown⟩ := pickSteps_exact ht hi
      obtain rfl : e = e' := Option.some.inj (hi.symm.trans he')
      rw [EntryView.isEligible, hown]
      rfl
  · intro h
    cases hp : (pickV2 s member).picked with
    | none => rfl
    | some p =>
      obtain ⟨e, he, -, heligible⟩ := pickV2_eligible hp
      have := h e he
      rw [EntryView.isEligible, heligible] at this
      cases this

theorem pickV2_skips_sublist :
    ((pickV2 s member).skips.map (·.entry)).Sublist (s.entries.map (·.id)) := by
  cases ht : (pickSteps s member).2 with
  | none =>
    rw [pickV2_none ht]
    exact skipsOf_entries
  | some t =>
    rw [pickV2_some ht]
    exact skipsOf_entries

/-- The picked entry is not reported. -/
theorem pickV2_not_skipped (hids : (s.entries.map (·.id)).Nodup) {p : Pick}
    (h : (pickV2 s member).picked = some p) : ∀ k ∈ (pickV2 s member).skips, k.entry ≠ p.entry := by
  cases ht : (pickSteps s member).2 with
  | none =>
    rw [pickV2_none ht] at h
    cases h
  | some t =>
    rw [pickV2_some ht] at h ⊢
    obtain rfl := Option.some.inj h
    intro k hk hsame
    obtain ⟨e, i, he, hentry, hreason⟩ := mem_skipsOf hk
    have hposition := (pickSteps_some ht).1
    have hindex : i = t.index := by
      have hi : (s.entries.map (·.id))[i]? = some t.entry.id := by
        rw [List.getElem?_map, he, Option.map_some, ← hentry, hsame]
      have ht' : (s.entries.map (·.id))[t.index]? = some t.entry.id := by
        rw [List.getElem?_map, hposition, Option.map_some]
      exact (List.getElem?_inj (List.getElem?_eq_some_iff.mp hi).1 hids).mp (hi.trans ht'.symm)
    rw [hindex, Function.update_self] at hreason
    cases hreason

end pick

/-- **The pick is exact.** What it takes is eligible with the unit and the models
it reports; it takes nothing only where nothing is eligible, and then reports
every entry's own reason; it keeps the order of preference; and it reports in
file order, no entry twice and never the one it took. -/
theorem pick_exact (s : V2Snapshot) (hs : s.Valid) (member : Member) :
    (∀ p, (pickV2 s member).picked = some p →
      ∃ e ∈ s.entries, e.id = p.entry ∧ eligible s member e = .ok (p.unit, p.declared)) ∧
    ((pickV2 s member).picked = none ↔ ∀ e ∈ s.entries, e.isEligible s member = false) ∧
    ((pickV2 s member).picked = none →
      List.Forall₂ (fun e k => k.entry = e.id ∧ eligible s member e = .error k.reason) s.entries
        (pickV2 s member).skips) ∧
    PriorityLaw s member (pickV2 s member) ∧
    (∀ p, (pickV2 s member).picked = some p →
      ∀ k ∈ (pickV2 s member).skips, k.entry ≠ p.entry) ∧
    ((pickV2 s member).skips.map (·.entry)).Sublist (s.entries.map (·.id)) ∧
    ((pickV2 s member).skips.map (·.entry)).Nodup := by
  refine ⟨?_, pickV2_none_iff, pickV2_reports, pickV2_priority, ?_, pickV2_skips_sublist, ?_⟩
  · intro p hp
    exact pickV2_eligible hp
  · intro p hp
    exact pickV2_not_skipped hs.idsDistinct hp
  · exact pickV2_skips_sublist.nodup hs.idsDistinct

/-- A member, and three normal entries on three repos: one queued, and two it
holds active, of which the later waits for a link. -/
def demoMember : Member := ⟨"m1", .claude, none⟩

def demoEntry (id : String) (status : EntryStatus) (after : List String)
    (holder : Option String) : EntryView :=
  ⟨id, .task, id, .normal, status, after, holder, none⟩

def demoSnapshot : V2Snapshot where
  projects := [⟨"n0", "~/n0"⟩, ⟨"a1", "~/a1"⟩, ⟨"a2", "~/a2"⟩]
  entries := [demoEntry "n0" .queued [] none, demoEntry "a1" .active [] (some "m1"),
    demoEntry "a2" .active ["n0"] (some "m1")]
  trees := ∅
  doneIds := []

theorem demoSnapshot_valid : demoSnapshot.Valid where
  idsDistinct := by decide
  projectsDistinct := by decide
  urgentFirst := by decide

theorem pick_exact_demo :
    (pickV2 demoSnapshot demoMember).picked = some ⟨"n0", .entry, none⟩ ∧
    ∀ k ∈ (pickV2 demoSnapshot demoMember).skips, k.entry ≠ "n0" := by
  have hpick : (pickV2 demoSnapshot demoMember).picked = some ⟨"n0", .entry, none⟩ := by
    decide +kernel
  obtain ⟨-, -, -, -, hskips, -, -⟩ := pick_exact demoSnapshot demoSnapshot_valid demoMember
  exact ⟨hpick, hskips _ hpick⟩

/-- Step 2 tries the last active entry only: an eligible one held earlier in the
file is passed over for a normal entry nobody holds. -/
theorem pick_of_any_held_fails :
    ¬ ∀ (s : V2Snapshot) (member : Member), s.Valid →
      s.firstEligible member .urgent member.pin = none →
      (∃ e ∈ s.entries, e.heldBy member = true ∧ e.isEligible s member = true) →
      ∃ e ∈ s.entries, e.heldBy member = true ∧ (pickV2 s member).Picks e := by
  intro h
  have hheld : ∃ e ∈ demoSnapshot.entries,
      e.heldBy demoMember = true ∧ e.isEligible demoSnapshot demoMember = true :=
    ⟨demoEntry "a1" .active [] (some "m1"), by decide, by decide, by decide +kernel⟩
  obtain ⟨e, he, hholds, p, hp, hid⟩ :=
    h demoSnapshot demoMember demoSnapshot_valid (by decide +kernel) hheld
  have hpick : (pickV2 demoSnapshot demoMember).picked = some ⟨"n0", .entry, none⟩ := by
    decide +kernel
  obtain rfl := Option.some.inj (hpick.symm.trans hp)
  have hnone : ∀ e ∈ demoSnapshot.entries, e.heldBy demoMember = true → e.id ≠ "n0" := by
    decide
  exact hnone e he hholds hid.symm

end Softfig.Queue
