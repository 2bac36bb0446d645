import Softfig.Queue.Identities
import Softfig.Queue.Scheduler

/-!
The pick and the claim: the daemon reads the files into a snapshot, lays its
runtime state over it, picks, and asks the writer to claim what it picked.

- `claim_ok_iff`: in a reachable garden a picked unit is refused exactly where
  another item of its slice order is active;
- `pick_claim_agree`: where no request ever put a queued item in front of an
  active one, every picked unit can be claimed.
-/

namespace Softfig.Queue

open Lib

/-! ### Reading the files -/

abbrev Trees := AList fun _ : String => TreeView

/-- The models a document's chain declares, for a milestone or task and one of its
slices; nothing where a declaration is malformed. -/
abbrev ModelChain := String → Option String → Option (Option ModelList)

section assemble

variable (models : ModelChain)

/-- The items of a slice order; `into` loads the tree of a sub-milestone. -/
def itemViews (into : String → Trees → Option Trees) (milestone : String) :
    List SliceItem → Trees → Option (List ItemView × Trees)
  | [], trees => some ([], trees)
  | item :: items, trees =>
    match item.kind with
    | .slice => do
      let declared ← models milestone (some item.id)
      let (views, trees) ← itemViews into milestone items trees
      some (⟨.slice, item.id, item.status, declared⟩ :: views, trees)
    | .sub => do
      let sub := milestone ++ "/" ++ item.id
      (subDepth sub).toOption
      let trees ← into sub trees
      let (views, trees) ← itemViews into milestone items trees
      some (⟨.sub, item.id, item.status, none⟩ :: views, trees)

/-- Load the slice order of a milestone and of its sub-milestones. -/
def Garden.loadTree (g : Garden) : Nat → String → Trees → Option Trees
  | 0, _, _ => none
  | fuel + 1, milestone, trees =>
    match g.milestones.lookup milestone with
    | none => some trees
    | some dir => do
      (dir.slices.validate milestone).toOption
      let (items, trees) ← itemViews models (g.loadTree fuel) milestone dir.slices.items trees
      let declared ← models milestone none
      some (trees.insert milestone ⟨items, declared⟩)

/-- Sub-milestones nest twice. -/
def treeFuel : Nat := 3

/-- The models of a task's or restack's document; a milestone's trees are loaded. -/
def Garden.entryModels (g : Garden) (e : Entry) (trees : Trees) :
    Option (Option ModelList × Trees) :=
  match e.kind with
  | .task | .restack => (models e.id none).map fun declared => (declared, trees)
  | .milestone => (g.loadTree models treeFuel e.id trees).map fun trees => (none, trees)

def Garden.entryViews (g : Garden) : List Entry → Trees → Option (List EntryView × Trees)
  | [], trees => some ([], trees)
  | e :: es, trees => do
    let (declared, trees) ← g.entryModels models e trees
    let (views, trees) ← g.entryViews es trees
    some (⟨e.id, e.kind, e.project, e.lane, e.status, e.after, none, declared⟩ :: views, trees)

/-- The snapshot of the files, where they are there and in order. -/
def Garden.assemble (g : Garden) : Option V2Snapshot := do
  let queue ← g.queue
  (queue.validate g.archiveToml).toOption
  let (entries, trees) ← g.entryViews models queue.entries ∅
  some ⟨queue.projects.map fun p => ⟨p.name, p.repo⟩, entries, trees, g.archiveToml.doneIds⟩

end assemble

/-! ### The daemon's runtime state -/

/-- A member holds an entry while it reads a status. -/
structure V2Hold where
  entry : String
  agent : String
  status : Option EntryStatus

/-- Holds, and accepted model changes of units. -/
structure V2Overlay where
  holds : List V2Hold
  modelOverrides : List (String × WorkUnit × ModelChoice)

def ModelList.single (choice : ModelChoice) : ModelList := ⟨[choice], List.cons_ne_nil _ _⟩

def V2Snapshot.hold (s : V2Snapshot) (hold : V2Hold) : V2Snapshot :=
  let mine (e : EntryView) : Bool :=
    e.id = hold.entry ∧ hold.status.all (fun status => e.status = status) = true
  let entries := Rows.modify mine true (fun e => { e with holder := some hold.agent }) s.entries
  { s with entries }

/-- Make a model the only one of a unit. -/
def V2Snapshot.overlayUnitModel (s : V2Snapshot) (entry : String) (unit : WorkUnit)
    (choice : ModelChoice) : V2Snapshot :=
  let list := some (ModelList.single choice)
  match unit with
  | .slice milestone slice =>
    match s.trees.lookup milestone with
    | none => s
    | some tree =>
      let mine (i : ItemView) : Bool := i.kind = .slice ∧ i.id = slice
      let items := Rows.modify mine true (fun i => { i with models := list }) tree.items
      { s with trees := s.trees.insert milestone { tree with items } }
  | .closeOut milestone =>
    match s.trees.lookup milestone with
    | none => s
    | some tree => { s with trees := s.trees.insert milestone { tree with models := list } }
  | .entry =>
    { s with entries := Rows.modify (·.id) entry (fun e => { e with models := list }) s.entries }

def V2Snapshot.applyV2Overlay (s : V2Snapshot) (overlay : V2Overlay) : V2Snapshot :=
  overlay.modelOverrides.foldl (fun s (entry, unit, choice) => s.overlayUnitModel entry unit choice)
    (overlay.holds.foldl V2Snapshot.hold s)

/-- What the daemon asks the writer to claim for a pick. -/
def Pick.claimArgs (pick : Pick) : String × Option String :=
  match pick.unit with
  | .slice milestone slice => (milestone, some slice)
  | .closeOut milestone => (milestone, none)
  | .entry => (pick.entry, none)

/-! ### What a snapshot shows of the files -/

/-- The part of a row that runtime state leaves alone. -/
def EntryView.shape (e : EntryView) : String × EntryKind × String × Lane × EntryStatus :=
  (e.id, e.kind, e.project, e.lane, e.status)

def Entry.shape (e : Entry) : String × EntryKind × String × Lane × EntryStatus :=
  (e.id, e.kind, e.project, e.lane, e.status)

def ItemView.shape (i : ItemView) : SliceKind × String × SliceStatus := (i.kind, i.id, i.status)

def SliceItem.shape (i : SliceItem) : SliceKind × String × SliceStatus := (i.kind, i.id, i.status)

/-- The trees show folders whose order validates. -/
def TreesShow (g : Garden) (trees : Trees) : Prop :=
  ∀ m tree, trees.lookup m = some tree → ∃ dir, g.milestones.lookup m = some dir ∧
    dir.slices.validate m = .ok () ∧
    tree.items.map ItemView.shape = dir.slices.items.map SliceItem.shape

/-- A snapshot shows the garden's files, whatever its holders and models. -/
structure Shows (g : Garden) (s : V2Snapshot) : Prop where
  valid : g.Valid
  projects : s.projects = g.queueToml.projects.map fun p => ⟨p.name, p.repo⟩
  entries : s.entries.map EntryView.shape = g.queueToml.entries.map Entry.shape
  trees : TreesShow g s.trees

section shows

variable {g : Garden} {models : ModelChain}

theorem TreesShow.insert {trees : Trees} (h : TreesShow g trees) {milestone : String}
    {tree : TreeView} {dir : MilestoneDir} (hdir : g.milestones.lookup milestone = some dir)
    (hvalid : dir.slices.validate milestone = .ok ())
    (hitems : tree.items.map ItemView.shape = dir.slices.items.map SliceItem.shape) :
    TreesShow g (trees.insert milestone tree) := by
  intro m tree' hlookup
  by_cases hm : m = milestone
  · rw [hm, AList.lookup_insert] at hlookup
    obtain rfl := Option.some.inj hlookup
    rw [hm]
    exact ⟨dir, hdir, hvalid, hitems⟩
  · rw [AList.lookup_insert_ne hm] at hlookup
    exact h m tree' hlookup

theorem itemViews_show {into : String → Trees → Option Trees} {milestone : String}
    (hinto : ∀ m trees trees', TreesShow g trees → into m trees = some trees' →
      TreesShow g trees') {items : List SliceItem} {trees : Trees}
    {made : List ItemView × Trees} (htrees : TreesShow g trees)
    (h : itemViews models into milestone items trees = some made) :
    TreesShow g made.2 ∧ made.1.map ItemView.shape = items.map SliceItem.shape := by
  induction items generalizing trees made with
  | nil =>
    obtain rfl := Option.some.inj h
    exact ⟨htrees, rfl⟩
  | cons item items ih =>
    rw [itemViews] at h
    split at h
    · rename_i hkind
      simp only [Option.bind_eq_bind, Option.bind_eq_some_iff] at h
      obtain ⟨declared, -, rest, hrest, h⟩ := h
      obtain rfl := Option.some.inj h
      obtain ⟨hshow, hshape⟩ := ih htrees hrest
      refine ⟨hshow, ?_⟩
      rw [List.map_cons, List.map_cons, hshape, SliceItem.shape, hkind]
      rfl
    · rename_i hkind
      simp only [Option.bind_eq_bind, Option.bind_eq_some_iff] at h
      obtain ⟨-, -, loaded, hload, rest, hrest, h⟩ := h
      obtain rfl := Option.some.inj h
      obtain ⟨hshow, hshape⟩ := ih (hinto _ _ _ htrees hload) hrest
      refine ⟨hshow, ?_⟩
      rw [List.map_cons, List.map_cons, hshape, SliceItem.shape, hkind]
      rfl

theorem toOption_eq_some {x : Except QueueRefusal Unit} {u : Unit}
    (h : x.toOption = some u) : x = .ok () := by
  cases x with
  | ok _ => rfl
  | error _ => cases h

theorem loadTree_show {fuel : Nat} {milestone : String} {trees trees' : Trees}
    (htrees : TreesShow g trees) (h : g.loadTree models fuel milestone trees = some trees') :
    TreesShow g trees' := by
  induction fuel generalizing milestone trees trees' with
  | zero => cases h
  | succ fuel ih =>
    rw [Garden.loadTree] at h
    split at h
    · obtain rfl := Option.some.inj h
      exact htrees
    · rename_i dir hdir
      simp only [Option.bind_eq_bind, Option.bind_eq_some_iff] at h
      obtain ⟨⟨⟩, hvalid, made, hmade, declared, -, h⟩ := h
      obtain rfl := Option.some.inj h
      obtain ⟨hshow, hshape⟩ := itemViews_show (fun _ _ _ hshow hload => ih hshow hload) htrees hmade
      exact hshow.insert hdir (toOption_eq_some hvalid) hshape

theorem entryViews_show {entries : List Entry} {trees : Trees} {made : List EntryView × Trees}
    (htrees : TreesShow g trees) (h : g.entryViews models entries trees = some made) :
    TreesShow g made.2 ∧ made.1.map EntryView.shape = entries.map Entry.shape := by
  induction entries generalizing trees made with
  | nil =>
    obtain rfl := Option.some.inj h
    exact ⟨htrees, rfl⟩
  | cons e es ih =>
    simp only [Garden.entryViews, Option.bind_eq_bind, Option.bind_eq_some_iff] at h
    obtain ⟨loaded, hload, rest, hrest, h⟩ := h
    obtain rfl := Option.some.inj h
    have hloaded : TreesShow g loaded.2 := by
      unfold Garden.entryModels at hload
      split at hload
      · obtain ⟨declared, -, rfl⟩ := Option.map_eq_some_iff.mp hload
        exact htrees
      · obtain ⟨declared, -, rfl⟩ := Option.map_eq_some_iff.mp hload
        exact htrees
      · obtain ⟨trees', htree, rfl⟩ := Option.map_eq_some_iff.mp hload
        exact loadTree_show htrees htree
    obtain ⟨hshow, hshape⟩ := ih hloaded hrest
    refine ⟨hshow, ?_⟩
    rw [List.map_cons, List.map_cons, hshape]
    rfl

/-- What was assembled shows the files. -/
theorem assemble_shows {s : V2Snapshot} (h : g.assemble models = some s) : Shows g s := by
  simp only [Garden.assemble, Option.bind_eq_bind, Option.bind_eq_some_iff] at h
  obtain ⟨queue, hqueue, ⟨⟩, hvalid, made, hmade, h⟩ := h
  obtain rfl := Option.some.inj h
  have hempty : TreesShow g (∅ : Trees) := by
    intro m tree hlookup
    cases hlookup
  obtain ⟨htrees, hentries⟩ := entryViews_show hempty hmade
  have hfile : g.queueToml = queue := by
    rw [Garden.queueToml, hqueue]
    rfl
  refine ⟨?_, ?_, ?_, htrees⟩
  · rw [Garden.Valid, hfile]
    exact toOption_eq_some hvalid
  · rw [hfile]
  · rw [hfile]
    exact hentries

theorem foldl_shows {α : Type} {f : V2Snapshot → α → V2Snapshot}
    (hf : ∀ s a, Shows g s → Shows g (f s a)) {edits : List α} {s : V2Snapshot}
    (h : Shows g s) : Shows g (edits.foldl f s) := by
  induction edits generalizing s with
  | nil => exact h
  | cons a edits ih => exact ih (hf s a h)

theorem hold_shows {s : V2Snapshot} (hold : V2Hold) (h : Shows g s) : Shows g (s.hold hold) where
  valid := h.valid
  projects := h.projects
  entries := by
    rw [← h.entries]
    exact Rows.map_modify fun _ => rfl
  trees := h.trees

theorem overlayUnitModel_shows {s : V2Snapshot} (entry : String) (unit : WorkUnit)
    (choice : ModelChoice) (h : Shows g s) : Shows g (s.overlayUnitModel entry unit choice) := by
  unfold V2Snapshot.overlayUnitModel
  split
  · split
    · exact h
    · rename_i tree htree
      obtain ⟨dir, hdir, hvalid, hitems⟩ := h.trees _ tree htree
      refine ⟨h.valid, h.projects, h.entries, h.trees.insert hdir hvalid ?_⟩
      rw [← hitems]
      exact Rows.map_modify fun _ => rfl
  · split
    · exact h
    · rename_i tree htree
      obtain ⟨dir, hdir, hvalid, hitems⟩ := h.trees _ tree htree
      exact ⟨h.valid, h.projects, h.entries, h.trees.insert hdir hvalid hitems⟩
  · refine ⟨h.valid, h.projects, ?_, h.trees⟩
    rw [← h.entries]
    exact Rows.map_modify fun _ => rfl

/-- Runtime state leaves what the snapshot shows alone. -/
theorem overlay_shows {s : V2Snapshot} (overlay : V2Overlay) (h : Shows g s) :
    Shows g (s.applyV2Overlay overlay) :=
  foldl_shows (fun _ _ h => overlayUnitModel_shows _ _ _ h)
    (foldl_shows (fun _ hold h => hold_shows hold h) h)

end shows

/-! ### The depth of the trees -/

section depth

variable {g : Garden} {models : ModelChain}

theorem itemViews_congr {into into' : String → Trees → Option Trees} {milestone : String}
    {items : List SliceItem} (h : ∀ id trees, (subDepth (milestone ++ "/" ++ id)).toOption.isSome →
      into (milestone ++ "/" ++ id) trees = into' (milestone ++ "/" ++ id) trees)
    (trees : Trees) : itemViews models into milestone items trees =
      itemViews models into' milestone items trees := by
  induction items generalizing trees with
  | nil => rfl
  | cons item items ih =>
    rw [itemViews, itemViews]
    cases item.kind with
    | slice => simp only [ih]
    | sub =>
      cases hdepth : (subDepth (milestone ++ "/" ++ item.id)).toOption with
      | none => simp only [hdepth, Option.bind_eq_bind, Option.bind_none]
      | some u => simp only [ih, h item.id _ (by rw [hdepth]; rfl)]

/-- The three levels a sub-milestone's depth allows are all the trees there are. -/
theorem loadTree_succ {fuel : Nat} {milestone : String} {trees : Trees} (hpos : 0 < fuel)
    (hdepth : treeFuel ≤ milestone.toList.count '/' + fuel) :
    g.loadTree models (fuel + 1) milestone trees = g.loadTree models fuel milestone trees := by
  induction fuel generalizing milestone trees with
  | zero => omega
  | succ fuel ih =>
    rw [Garden.loadTree, Garden.loadTree]
    cases g.milestones.lookup milestone with
    | none => rfl
    | some dir =>
      have hsubs : itemViews models (g.loadTree models (fuel + 1)) milestone dir.slices.items trees =
          itemViews models (g.loadTree models fuel) milestone dir.slices.items trees := by
        refine itemViews_congr (fun id trees hsub => ?_) trees
        have hcount : (milestone ++ "/" ++ id).toList.count '/' =
            milestone.toList.count '/' + 1 + id.toList.count '/' := by
          simp [String.toList_append, List.count_append]
          omega
        have hsmall : (milestone ++ "/" ++ id).toList.count '/' < 3 := by
          unfold subDepth at hsub
          split at hsub
          · cases hsub
          · omega
        unfold treeFuel at hdepth ih
        exact ih (by omega) (by omega)
      simp only [hsubs]

theorem loadTree_fuel {fuel : Nat} {milestone : String} {trees : Trees} (h : treeFuel ≤ fuel) :
    g.loadTree models fuel milestone trees = g.loadTree models treeFuel milestone trees := by
  induction fuel, h using Nat.le_induction with
  | base => rfl
  | succ fuel hle ih =>
    have hpos : 0 < fuel := Nat.lt_of_lt_of_le (by decide) hle
    rw [loadTree_succ hpos (by omega), ih]

end depth

/-! ### Where the walk ends -/

/-- A status an item is picked with. -/
def SliceStatus.isOpen : SliceStatus → Bool
  | .queued | .active => true
  | .done | .split | .blocked | .deferred => false

/-- An identity below a milestone, or the milestone. -/
def Below (milestone m : String) : Prop := ∃ rest, (rest = "" ∨ ∃ tail, rest = "/" ++ tail) ∧
  m = milestone ++ rest

theorem Below.refl (milestone : String) : Below milestone milestone :=
  ⟨"", Or.inl rfl, (String.append_empty).symm⟩

theorem Below.sub {milestone id m : String} (h : Below (milestone ++ "/" ++ id) m) :
    Below milestone m := by
  obtain ⟨rest, -, rfl⟩ := h
  refine ⟨"/" ++ (id ++ rest), Or.inr ⟨id ++ rest, rfl⟩, ?_⟩
  simp only [String.append_assoc]

/-- The unit of a walk: a slice is the first of its order that is not closed. -/
def WalkEnds (trees : Trees) (milestone : String) (unit : WorkUnit) : Prop :=
  (∃ m, unit = .closeOut m ∧ Below milestone m) ∨
    ∃ m tree before item after, unit = .slice m item.id ∧ Below milestone m ∧
      trees.lookup m = some tree ∧ tree.items = before ++ item :: after ∧ item.kind = .slice ∧
      item.status.isOpen = true ∧ ∀ b ∈ before, b.status.isOpen = false

theorem WalkEnds.sub {trees : Trees} {milestone id : String} {unit : WorkUnit}
    (h : WalkEnds trees (milestone ++ "/" ++ id) unit) : WalkEnds trees milestone unit := by
  rcases h with ⟨m, hunit, hm⟩ | ⟨m, tree, before, item, after, hunit, hm, hrest⟩
  · exact Or.inl ⟨m, hunit, hm.sub⟩
  · exact Or.inr ⟨m, tree, before, item, after, hunit, hm.sub, hrest⟩

theorem walkItems_ends {trees : Trees} {into : String → WalkOutcome} {milestone : String}
    {tree : TreeView} (hinto : ∀ id unit declared, into (milestone ++ "/" ++ id) =
      .unit unit declared → WalkEnds trees (milestone ++ "/" ++ id) unit)
    (htree : trees.lookup milestone = some tree) {closed items : List ItemView}
    (hitems : tree.items = closed ++ items) (hclosed : ∀ b ∈ closed, b.status.isOpen = false)
    {unit : WorkUnit} {declared : Option ModelList}
    (h : walkItems into milestone (.unit (.closeOut milestone) tree.models) items =
      .unit unit declared) : WalkEnds trees milestone unit := by
  induction items generalizing closed with
  | nil =>
    obtain ⟨rfl, -⟩ := WalkOutcome.unit.inj h
    exact Or.inl ⟨milestone, rfl, .refl milestone⟩
  | cons item items ih =>
    have hpass (hstatus : item.status.isOpen = false)
        (h : walkItems into milestone (.unit (.closeOut milestone) tree.models) items =
          .unit unit declared) : WalkEnds trees milestone unit := by
      have hitems' : tree.items = (closed ++ [item]) ++ items := by
        rw [hitems, List.append_assoc]
        rfl
      refine ih hitems' ?_ h
      intro b hb
      rcases List.mem_append.mp hb with hb | hb
      · exact hclosed b hb
      · rw [List.mem_singleton.mp hb]
        exact hstatus
    have htake (hstatus : item.status.isOpen = true)
        (h : (match item.kind with
          | .slice => .unit (.slice milestone item.id) item.models
          | .sub => into (milestone ++ "/" ++ item.id)) = WalkOutcome.unit unit declared) :
        WalkEnds trees milestone unit := by
      split at h
      · rename_i hkind
        obtain ⟨rfl, -⟩ := WalkOutcome.unit.inj h
        exact Or.inr ⟨milestone, tree, closed, item, items, rfl, .refl milestone, htree, hitems,
          hkind, hstatus, hclosed⟩
      · exact (hinto item.id unit declared h).sub
    cases hstatus : item.status with
    | queued =>
      rw [walkItems, hstatus] at h
      exact htake (by rw [hstatus]; rfl) h
    | active =>
      rw [walkItems, hstatus] at h
      exact htake (by rw [hstatus]; rfl) h
    | blocked =>
      rw [walkItems, hstatus] at h
      cases h
    | done =>
      rw [walkItems, hstatus] at h
      exact hpass (by rw [hstatus]; rfl) h
    | split =>
      rw [walkItems, hstatus] at h
      exact hpass (by rw [hstatus]; rfl) h
    | deferred =>
      rw [walkItems, hstatus] at h
      exact hpass (by rw [hstatus]; rfl) h

theorem walkTree_ends {trees : Trees} {fuel : Nat} {milestone : String} {unit : WorkUnit}
    {declared : Option ModelList} (h : walkTree trees fuel milestone = .unit unit declared) :
    WalkEnds trees milestone unit := by
  induction fuel generalizing milestone unit declared with
  | zero => cases h
  | succ fuel ih =>
    rw [walkTree] at h
    split at h
    · cases h
    · rename_i tree htree
      exact walkItems_ends (fun id unit declared h => ih h) htree (List.nil_append _).symm
        (fun b hb => by cases hb) h

/-- The unit of an entry is its own, or one of its walk. -/
theorem nextUnit_ends {s : V2Snapshot} {entry : EntryView} {unit : WorkUnit}
    {declared : Option ModelList} (h : nextUnit s entry = .unit unit declared) :
    unit = .entry ∨ entry.kind = .milestone ∧ WalkEnds s.trees entry.id unit := by
  unfold nextUnit at h
  split at h
  · obtain ⟨rfl, -⟩ := WalkOutcome.unit.inj h
    exact Or.inl rfl
  · obtain ⟨rfl, -⟩ := WalkOutcome.unit.inj h
    exact Or.inl rfl
  · rename_i hkind
    exact Or.inr ⟨hkind, walkTree_ends h⟩

/-- What an eligible entry met. -/
theorem eligible_ok {s : V2Snapshot} {member : Member} {entry : EntryView} {unit : WorkUnit}
    {declared : Option ModelList} (h : eligible s member entry = .ok (unit, declared)) :
    (entry.status = .queued ∨ entry.status = .active ∨ entry.status = .paused) ∧
      (∃ repo, s.repoOf entry = some repo ∧
        (entry.lane = .normal → s.repoHeld entry repo = false)) ∧
      nextUnit s entry = .unit unit declared := by
  unfold eligible at h
  split at h
  · cases h
  · rename_i hstatus
    split at h
    · cases h
    · split at h
      · cases h
      · rename_i repo hrepo
        split at h
        · cases h
        · rename_i hheld
          split at h
          · cases h
          · split at h
            · cases h
            · split at h
              · rename_i unit' models hnext
                split at h
                · cases h
                · obtain ⟨rfl, rfl⟩ := Prod.mk.inj (Except.ok.inj h)
                  refine ⟨?_, ⟨repo, hrepo, fun hlane => ?_⟩, hnext⟩
                  · by_contra hnone
                    simp only [not_or] at hnone
                    exact hstatus hnone
                  · by_contra hheld'
                    exact hheld ⟨hlane, by simpa using hheld'⟩
              · cases h
              · cases h

/-! ### What the writer accepts -/

section writer

variable {queue : QueueToml} {archive : QueueArchiveToml}

/-- The columns of a row that its status leaves alone. -/
def Entry.columns (e : Entry) : String × EntryKind × String × Lane × List String :=
  (e.id, e.kind, e.project, e.lane, e.after)

/-- The writer's invariants other than the started rows are about these columns. -/
theorem WriterInvariant.of_columns {entries : List Entry} (h : queue.WriterInvariant archive)
    (hcolumns : entries.map Entry.columns = queue.entries.map Entry.columns)
    (hone : ∀ repo, (entries.filter fun e => queue.Starts repo e).length ≤ 1) :
    QueueToml.WriterInvariant { queue with entries } archive := by
  have hsource (e : Entry) (he : e ∈ entries) :
      ∃ e₀ ∈ queue.entries, e₀.columns = e.columns := by
    have hmem : e.columns ∈ queue.entries.map Entry.columns :=
      hcolumns ▸ List.mem_map_of_mem he
    exact List.mem_map.mp hmem
  have hids : entries.map (·.id) = queue.entries.map (·.id) := by
    have := congrArg (List.map Prod.fst) hcolumns
    rwa [List.map_map, List.map_map] at this
  have hnodup := (List.nodup_append.mp h.idsDistinct).1
  refine
    { urgentFirst := ?_
      restackUrgent := fun e he hkind => ?_
      idsDistinct := ?_
      linksResolve := fun e he id hid => ?_
      linksAcyclic := fun e hcycle => ?_
      projectsExist := fun e he => ?_
      oneStarted := hone }
  · have hlanes : entries.map (·.lane) = queue.entries.map (·.lane) := by
      have := congrArg (List.map fun c => c.2.2.2.1) hcolumns
      rwa [List.map_map, List.map_map] at this
    have hpairs : (queue.entries.map (·.lane)).Pairwise fun a b => a = .normal → b ≠ .urgent :=
      List.pairwise_map.mpr h.urgentFirst
    rw [← hlanes] at hpairs
    exact List.pairwise_map.mp hpairs
  · obtain ⟨e₀, he₀, heq⟩ := hsource e he
    simp only [Entry.columns, Prod.mk.injEq] at heq
    rw [← heq.2.2.2.1]
    exact h.restackUrgent e₀ he₀ (heq.2.1.trans hkind)
  · show (entries.map (·.id) ++ _).Nodup
    rw [hids]
    exact h.idsDistinct
  · obtain ⟨e₀, he₀, heq⟩ := hsource e he
    simp only [Entry.columns, Prod.mk.injEq] at heq
    rcases h.linksResolve e₀ he₀ id (heq.2.2.2.2 ▸ hid) with ⟨l, hl, rfl⟩ | hdone
    · have hmem : l.id ∈ entries.map (·.id) := hids ▸ List.mem_map_of_mem hl
      exact Or.inl (List.mem_map.mp hmem)
    · exact Or.inr hdone
  · have hlift : ∀ a b, Relation.TransGen (QueueToml.LinkTo { queue with entries }) a b →
        ∃ a₀ b₀, a₀.columns = a.columns ∧ b₀.columns = b.columns ∧
          Relation.TransGen queue.LinkTo a₀ b₀ := by
      have hlink (a b : Entry) (hab : QueueToml.LinkTo { queue with entries } a b) :
          ∃ a₀ b₀, a₀.columns = a.columns ∧ b₀.columns = b.columns ∧ queue.LinkTo a₀ b₀ := by
        obtain ⟨ha, hb, hlink⟩ := hab
        obtain ⟨a₀, ha₀, heqa⟩ := hsource a ha
        obtain ⟨b₀, hb₀, heqb⟩ := hsource b hb
        have hafter : a₀.after = a.after := congrArg (fun c => c.2.2.2.2) heqa
        have hid : b₀.id = b.id := congrArg Prod.fst heqb
        exact ⟨a₀, b₀, heqa, heqb, ha₀, hb₀, by rw [hafter, hid]; exact hlink⟩
      intro a b hab
      induction hab with
      | single hstep =>
        obtain ⟨a₀, b₀, ha, hb, hlink₀⟩ := hlink _ _ hstep
        exact ⟨a₀, b₀, ha, hb, .single hlink₀⟩
      | tail _ hstep ih =>
        obtain ⟨a₀, b₀, ha, hb, hpath⟩ := ih
        obtain ⟨b₁, c₀, hb₁, hc, hlink₀⟩ := hlink _ _ hstep
        have hsame : b₀ = b₁ := by
          obtain ⟨-, -, ⟨-, hb₀, -⟩⟩ := Relation.TransGen.tail'_iff.mp hpath
          refine List.inj_on_of_nodup_map hnodup hb₀ hlink₀.1 ?_
          exact congrArg Prod.fst (hb.trans hb₁.symm)
        subst hsame
        exact ⟨a₀, c₀, ha, hc, hpath.tail hlink₀⟩
    obtain ⟨a₀, b₀, ha, hb, hpath⟩ := hlift e e hcycle
    have hsame : a₀ = b₀ := by
      obtain ⟨c, ⟨ha₀, -, -⟩, -⟩ := Relation.TransGen.head'_iff.mp hpath
      obtain ⟨d, -, ⟨-, hb₀, -⟩⟩ := Relation.TransGen.tail'_iff.mp hpath
      exact List.inj_on_of_nodup_map hnodup ha₀ hb₀ (congrArg Prod.fst (ha.trans hb.symm))
    subst hsame
    exact h.linksAcyclic a₀ hpath
  · obtain ⟨e₀, he₀, heq⟩ := hsource e he
    simp only [Entry.columns, Prod.mk.injEq] at heq
    obtain ⟨p, hp, hname⟩ := h.projectsExist e₀ he₀
    exact ⟨p, hp, hname.trans heq.2.2.1⟩

/-- A row may start where no other normal row holds its repo. -/
theorem validate_start {row : Entry} (hvalid : queue.validate archive = .ok ())
    (hrow : row ∈ queue.entries)
    (hfree : ∀ repo, queue.Starts repo { row with status := .active } →
      ∀ other ∈ queue.entries, other.id ≠ row.id → ¬ queue.Starts repo other) :
    QueueToml.validate { queue with
      entries := Rows.modify (·.id) row.id (fun e => { e with status := .active }) queue.entries }
      archive = .ok () := by
  have hinv := validate_ok_iff.mp hvalid
  have hkeys := liveIds_nodup_of_valid hvalid
  have hrows : Rows.Rewrites (·.id) row.id (fun e : Entry => { e with status := .active })
      queue.entries (Rows.modify (·.id) row.id (fun e => { e with status := .active })
        queue.entries) :=
    .modify hkeys fun _ => rfl
  refine validate_ok_iff.mpr (WriterInvariant.of_columns hinv (Rows.map_modify fun _ => rfl) ?_)
  intro repo
  rw [Rows.filter_length_le_one_iff (hrows.keys.nodup_iff.mpr hkeys)]
  simp only [decide_eq_true_eq]
  have hother := (Rows.filter_length_le_one_iff hkeys).mp (hinv.oneStarted repo)
  simp only [decide_eq_true_eq] at hother
  intro a ha b hb hstarts hstarts'
  rcases (hrows.mem a).mp ha with ⟨ha', hne⟩ | ⟨a₀, ha₀, hid, rfl⟩
  · rcases (hrows.mem b).mp hb with ⟨hb', -⟩ | ⟨b₀, hb₀, hid', rfl⟩
    · exact hother a ha' b hb' hstarts hstarts'
    · obtain rfl := List.inj_on_of_nodup_map hkeys hb₀ hrow hid'
      exact absurd hstarts (hfree repo hstarts' a ha' hne)
  · rcases (hrows.mem b).mp hb with ⟨hb', hne⟩ | ⟨b₀, hb₀, hid', rfl⟩
    · obtain rfl := List.inj_on_of_nodup_map hkeys ha₀ hrow hid
      exact absurd hstarts' (hfree repo hstarts b hb' hne)
    · exact hid.trans hid'.symm

end writer

section claim

variable {g : Garden}

theorem isBlank_append {s t : String} (h : isBlank s = false) : isBlank (s ++ t) = false := by
  rw [isBlank, String.toList_append, List.all_append, Bool.and_eq_false_iff]
  exact Or.inl h

/-- A live row is loaded from a valid list. -/
theorem loadEntryRow_accepts {entry : String} {row : Entry} (hvalid : g.Valid)
    (hrow : row ∈ g.queueToml.entries) (hid : rowIdOf entry = row.id) :
    g.loadEntryRow entry = .ok (g.queueToml, g.archiveToml, row) := by
  have hqueue : g.queue = some g.queueToml := by
    cases hq : g.queue with
    | none =>
      rw [Garden.queueToml, hq] at hrow
      cases hrow
    | some queue => rw [Garden.queueToml, hq, Option.getD_some]
  have hload : g.loadQueueState = .ok (some (g.queueToml, g.archiveToml)) := by
    have hv : g.queueToml.validate g.archiveToml = .ok () := hvalid
    rw [Garden.loadQueueState, hqueue]
    simp only [hv]
  have hfind : Rows.row? (·.id) (rowIdOf entry) g.queueToml.entries = some row := by
    rw [hid]
    exact Rows.row?_of_mem (liveIds_nodup_of_valid hvalid) hrow
  simp only [Garden.loadEntryRow, bind_ok_iff, expect_ok_iff]
  exact ⟨_, hload, _, rfl, row, hfind, rfl⟩

/-- The status a row is claimed from. -/
def EntryStatus.Claimable (status : EntryStatus) : Prop :=
  status = .queued ∨ status = .active ∨ status = .paused

/-- No other normal row holds the repo that the row would hold. -/
def QueueToml.Free (queue : QueueToml) (row : Entry) : Prop :=
  ∀ repo, queue.Starts repo { row with status := .active } →
    ∀ other ∈ queue.entries, other.id ≠ row.id → ¬ queue.Starts repo other

theorem claimEntry_accepts {row : Entry} (hvalid : g.Valid) (hrow : row ∈ g.queueToml.entries)
    (hstatus : row.status.Claimable) (hfree : g.queueToml.Free row) :
    ∃ entries, claimEntry row g.queueToml.entries = .ok entries ∧
      QueueToml.validate { g.queueToml with entries } g.archiveToml = .ok () := by
  rcases hstatus with hqueued | hactive | hpaused
  · refine ⟨_, ?_, validate_start hvalid hrow hfree⟩
    simp only [claimEntry, hqueued]
  · refine ⟨g.queueToml.entries, ?_, hvalid⟩
    simp only [claimEntry, hactive]
  · refine ⟨_, ?_, validate_start hvalid hrow hfree⟩
    simp only [claimEntry, hpaused]

/-- A claim is accepted exactly where its unit is, on a row that may start. -/
theorem claim_accepts_iff {entry : String} {unit : Option String} {row : Entry}
    (hvalid : g.Valid) (hrow : row ∈ g.queueToml.entries) (htext : IdText row.id)
    (hentry : Below row.id entry) (hunit : ∀ u, unit = some u → isBlank u = false)
    (hstatus : row.status.Claimable) (hfree : g.queueToml.Free row) :
    (∃ g', queueV2Claim g entry unit = .ok g') ↔ ∃ g₁, claimUnit g entry row.kind unit = .ok g₁ := by
  obtain ⟨rest, hrest, rfl⟩ := hentry
  have hload := loadEntryRow_accepts hvalid hrow (htext.rowIdOf_append rest hrest)
  have haddress : ensureAddress (row.id ++ rest) unit = .ok () := by
    simp only [ensureAddress, bind_ok_iff, ensure_ok_iff]
    refine ⟨(), isBlank_append htext.not_blank, ?_⟩
    cases unit with
    | none => rfl
    | some u => simp [hunit u rfl]
  obtain ⟨entries, hclaim, hvalid'⟩ := claimEntry_accepts hvalid hrow hstatus hfree
  simp only [queueV2Claim, bind_ok_iff, refuse_ok_iff]
  constructor
  · rintro ⟨g', ⟨⟩, -, loaded, hload', entries', -, g₁, hg₁, -⟩
    obtain rfl := Except.ok.inj (hload.symm.trans hload')
    exact ⟨g₁, hg₁⟩
  · rintro ⟨g₁, hg₁⟩
    exact ⟨_, (), haddress, _, hload, entries, hclaim, g₁, hg₁, (), hvalid', rfl⟩

/-- An open slice is claimed exactly where no other item of its order is active. -/
theorem claimUnit_accepts_iff {milestone : String} {dir : MilestoneDir} {item : SliceItem}
    (hdir : g.milestones.lookup milestone = some dir)
    (hvalid : dir.slices.validate milestone = .ok ()) (hitem : item ∈ dir.slices.items)
    (hopen : item.status.isOpen = true) :
    (∃ g₁, claimUnit g milestone .milestone (some item.id) = .ok g₁) ↔
      ∀ other ∈ dir.slices.items, other.status = .active → other.id = item.id := by
  obtain ⟨-, hids, -⟩ := SlicesToml.validate_ok_iff.mp hvalid
  have hload : g.loadSlicesOf milestone = .ok dir.slices := by
    simp only [Garden.loadSlicesOf, bind_ok_iff, expect_ok_iff]
    refine ⟨some dir.slices, ?_, rfl⟩
    rw [Garden.loadSlices, hdir]
    simp only [hvalid]
  have hfind : Rows.row? (·.id) item.id dir.slices.items = some item := Rows.row?_of_mem hids hitem
  simp only [claimUnit, bind_ok_iff, ensure_ok_iff]
  constructor
  · rintro ⟨g₁, ⟨⟩, -, slices, hload', items, hclaim, -⟩
    obtain rfl := Except.ok.inj (hload.symm.trans hload')
    obtain ⟨-, -, honly, -⟩ := claimItem_ok hclaim
    exact honly
  · intro honly
    have hnone : dir.slices.items.find? (fun other => other.id ≠ item.id ∧ other.status = .active) =
        none := by
      refine List.find?_eq_none.mpr fun other hother => ?_
      simp only [decide_eq_true_eq, not_and]
      exact fun hne hactive => hne (honly other hother hactive)
    have hclaim : ∃ items, claimItem item.id dir.slices.items = .ok items := by
      simp only [claimItem, bind_ok_iff, expect_ok_iff]
      cases hstatus : item.status with
      | queued =>
        refine ⟨Rows.modify (·.id) item.id (fun i => { i with status := .active })
          dir.slices.items, item, hfind, ?_⟩
        simp only [hnone, hstatus]
      | active =>
        refine ⟨dir.slices.items, item, hfind, ?_⟩
        simp only [hnone, hstatus]
      | done => simp [SliceStatus.isOpen, hstatus] at hopen
      | split => simp [SliceStatus.isOpen, hstatus] at hopen
      | blocked => simp [SliceStatus.isOpen, hstatus] at hopen
      | deferred => simp [SliceStatus.isOpen, hstatus] at hopen
    obtain ⟨items, hclaim⟩ := hclaim
    exact ⟨_, (), trivial, _, hload, items, hclaim, rfl⟩

end claim

/-! ### A pick and its claim -/

section pick

variable {g : Garden} {s : V2Snapshot}

/-- Where names differ, the pick and the writer read one repo. -/
theorem Shows.repoOf (h : Shows g s) (hnames : (g.queueToml.projects.map (·.name)).Nodup)
    (e : EntryView) : s.repoOf e = g.queueToml.repoOf e.project := by
  have hkeys : ((g.queueToml.projects.map fun p => (p.name, p.repo)).map Prod.fst).Nodup := by
    rw [List.map_map]
    exact hnames
  refine Option.ext fun repo => ?_
  rw [QueueToml.repoOf, collect_eq_some hkeys, V2Snapshot.repoOf, h.projects, List.find?_map,
    Option.map_map, Option.map_eq_some_iff]
  constructor
  · rintro ⟨p, hp, rfl⟩
    have hname : p.name = e.project := by simpa using List.find?_some hp
    rw [← hname]
    exact List.mem_map_of_mem (List.mem_of_find?_eq_some hp)
  · intro hmem
    obtain ⟨p, hp, heq⟩ := List.mem_map.mp hmem
    obtain ⟨hname, rfl⟩ := Prod.mk.inj heq
    have hrow : Rows.row? (·.name) e.project g.queueToml.projects = some p := by
      rw [← hname]
      exact Rows.row?_of_mem hnames hp
    exact ⟨p, hrow, rfl⟩

/-- The row behind a view. -/
theorem Shows.row (h : Shows g s) {e : EntryView} (he : e ∈ s.entries) :
    ∃ row ∈ g.queueToml.entries, row.id = e.id ∧ row.kind = e.kind ∧ row.project = e.project ∧
      row.lane = e.lane ∧ row.status = e.status := by
  have hmem : e.shape ∈ g.queueToml.entries.map Entry.shape :=
    h.entries ▸ List.mem_map_of_mem he
  obtain ⟨row, hrow, heq⟩ := List.mem_map.mp hmem
  simp only [Entry.shape, EntryView.shape, Prod.mk.injEq] at heq
  exact ⟨row, hrow, heq.1, heq.2.1, heq.2.2.1, heq.2.2.2.1, heq.2.2.2.2⟩

theorem Shows.view (h : Shows g s) {row : Entry} (hrow : row ∈ g.queueToml.entries) :
    ∃ e ∈ s.entries, e.id = row.id ∧ e.project = row.project ∧ e.lane = row.lane ∧
      e.status = row.status := by
  have hmem : row.shape ∈ s.entries.map EntryView.shape :=
    h.entries.symm ▸ List.mem_map_of_mem hrow
  obtain ⟨e, he, heq⟩ := List.mem_map.mp hmem
  simp only [Entry.shape, EntryView.shape, Prod.mk.injEq] at heq
  exact ⟨e, he, heq.1, heq.2.2.1, heq.2.2.2.1, heq.2.2.2.2⟩

/-- The repo rule of the pick is the writer's rule on started rows. -/
theorem Shows.free (h : Shows g s) (hnames : (g.queueToml.projects.map (·.name)).Nodup)
    {e : EntryView} {row : Entry} {repo : String} (hid : row.id = e.id)
    (hproject : row.project = e.project) (hlane : row.lane = e.lane)
    (hrepo : s.repoOf e = some repo) (hheld : e.lane = .normal → s.repoHeld e repo = false) :
    g.queueToml.Free row := by
  rintro repo' ⟨hnormal, -, hrepo'⟩ other hother hne ⟨hlane', hstarted, hrepo''⟩
  rw [h.repoOf hnames, ← hproject] at hrepo
  obtain rfl : repo = repo' := Option.some.inj (hrepo.symm.trans hrepo')
  obtain ⟨o, ho, hoid, hoproject, holane, hostatus⟩ := h.view hother
  have hfree := hheld (hlane ▸ hnormal)
  rw [V2Snapshot.repoHeld, List.any_eq_false] at hfree
  refine hfree o ho ?_
  simp only [decide_eq_true_eq]
  refine ⟨?_, holane.trans hlane', hostatus ▸ hstarted, ?_⟩
  · rw [hoid, ← hid]
    exact hne
  · rw [h.repoOf hnames, hoproject]
    exact hrepo''

/-- No other item of the picked slice's order is active. -/
def Pick.Alone (g : Garden) (pick : Pick) : Prop :=
  ∀ m slice, pick.unit = .slice m slice → ∀ dir, g.milestones.lookup m = some dir →
    ∀ other ∈ dir.slices.items, other.status = .active → other.id = slice

/-- **A pick and its claim.** The writer refuses what was picked exactly where
another item of its slice order is active. -/
theorem pick_claim_iff (hg : Identities g) (h : Shows g s) {member : Member} {pick : Pick}
    (hpick : (pickV2 s member).picked = some pick) :
    (∃ g', queueV2Claim g pick.claimArgs.1 pick.claimArgs.2 = .ok g') ↔ pick.Alone g := by
  obtain ⟨e, he, hentry, heligible⟩ := pickV2_eligible hpick
  obtain ⟨hstatus, ⟨repo, hrepo, hheld⟩, hnext⟩ := eligible_ok heligible
  obtain ⟨row, hrow, hid, hkind, hproject, hlane, hstatus'⟩ := h.row he
  have hclaimable : row.status.Claimable := hstatus' ▸ hstatus
  have hfree := h.free hg.projects hid hproject hlane hrepo hheld
  have htext := (hg.live row hrow).text
  have hnone : ∀ u, (none : Option String) = some u → isBlank u = false := by
    rintro u ⟨⟩
  rcases nextUnit_ends hnext with hunit |
    ⟨hmilestone, ⟨m, hunit, hm⟩ | ⟨m, tree, before, item, after, hunit, hm, htree, hitems, hslice,
      hopen, -⟩⟩
  · have hargs : pick.claimArgs = (row.id, none) := by
      rw [Pick.claimArgs, hunit, ← hentry, hid]
    rw [hargs]
    refine iff_of_true ?_ ?_
    · exact (claim_accepts_iff h.valid hrow htext (.refl _) hnone hclaimable hfree).mpr ⟨g, rfl⟩
    · intro m slice hslice
      rw [hunit] at hslice
      cases hslice
  · have hargs : pick.claimArgs = (m, none) := by
      rw [Pick.claimArgs, hunit]
    rw [hargs]
    refine iff_of_true ?_ ?_
    · exact (claim_accepts_iff h.valid hrow htext (hid ▸ hm) hnone hclaimable hfree).mpr ⟨g, rfl⟩
    · intro m slice hslice
      rw [hunit] at hslice
      cases hslice
  · have hargs : pick.claimArgs = (m, some item.id) := by
      rw [Pick.claimArgs, hunit]
    obtain ⟨dir, hdir, hvalid, hshape⟩ := h.trees m tree htree
    have hmem : item.shape ∈ dir.slices.items.map SliceItem.shape := by
      rw [← hshape, hitems]
      exact List.mem_map_of_mem (List.mem_append_right _ List.mem_cons_self)
    obtain ⟨i, hi, heq⟩ := List.mem_map.mp hmem
    simp only [SliceItem.shape, ItemView.shape, Prod.mk.injEq] at heq
    obtain ⟨-, hiid, histatus⟩ := heq
    have htext' : IdText item.id := hiid ▸ (hg.items m dir hdir i hi).text
    have hnotblank : ∀ u, some item.id = some u → isBlank u = false := by
      rintro u ⟨⟩
      exact htext'.not_blank
    have haccepts := claimUnit_accepts_iff hdir hvalid hi (histatus.symm ▸ hopen)
    rw [hiid] at haccepts
    rw [hargs, claim_accepts_iff h.valid hrow htext (hid ▸ hm) hnotblank hclaimable hfree, hkind,
      hmilestone, haccepts]
    constructor
    · intro honly m' slice hslice' dir' hdir' other hother hactive
      rw [hunit] at hslice'
      obtain ⟨rfl, rfl⟩ := WorkUnit.slice.inj hslice'
      obtain rfl := Option.some.inj (hdir.symm.trans hdir')
      exact honly other hother hactive
    · intro halone other hother hactive
      exact halone m item.id hunit dir hdir other hother hactive

end pick

/-! ### Items in order -/

/-- No queued slice stands in front of an active item. -/
def InOrder (items : List SliceItem) : Prop :=
  items.Pairwise fun a b => a.kind = .slice → a.status = .queued → b.status ≠ .active

/-- In an order with its active item in front, what is picked stands alone. -/
theorem alone_of_inOrder {g : Garden} {s : V2Snapshot} (h : Shows g s) {member : Member}
    {pick : Pick} (hpick : (pickV2 s member).picked = some pick)
    (horders : ∀ m dir, g.milestones.lookup m = some dir → InOrder dir.slices.items)
    (hone : ∀ m dir, g.milestones.lookup m = some dir → OneActive dir.slices.items) :
    pick.Alone g := by
  intro m slice hslice dir hdir other hother hactive
  obtain ⟨e, -, -, heligible⟩ := pickV2_eligible hpick
  obtain ⟨-, -, hnext⟩ := eligible_ok heligible
  rw [hslice] at hnext
  rcases nextUnit_ends hnext with hunit |
    ⟨-, ⟨m', hunit, -⟩ | ⟨m', tree, before, item, after, hunit, -, htree, hitems, hkind, hopen,
      hclosed⟩⟩
  · cases hunit
  · cases hunit
  · obtain ⟨rfl, rfl⟩ := WorkUnit.slice.inj hunit
    obtain ⟨dir', hdir', hvalid, hshape⟩ := h.trees m tree htree
    obtain rfl := Option.some.inj (hdir.symm.trans hdir')
    rw [hitems, List.map_append, List.map_cons] at hshape
    obtain ⟨front, rest, hsplit, hfront, hrest⟩ := List.map_eq_append_iff.mp hshape.symm
    obtain ⟨i, back, rfl, hi, -⟩ := List.map_eq_cons_iff.mp hrest
    simp only [SliceItem.shape, ItemView.shape, Prod.mk.injEq] at hi
    obtain ⟨hikind, hiid, histatus⟩ := hi
    have horder := horders m dir hdir
    rw [hsplit] at horder hother
    rcases List.mem_append.mp hother with hmem | hmem
    · have hshown : other.shape ∈ before.map ItemView.shape :=
        hfront ▸ List.mem_map_of_mem hmem
      obtain ⟨b, hb, heq⟩ := List.mem_map.mp hshown
      simp only [SliceItem.shape, ItemView.shape, Prod.mk.injEq] at heq
      have hnot := hclosed b hb
      rw [heq.2.2, hactive] at hnot
      cases hnot
    · rcases List.mem_cons.mp hmem with rfl | hback
      · exact hiid
      · cases hstatus : i.status with
        | queued =>
          have hpairs := (List.pairwise_append.mp horder).2.1
          have hnever := (List.pairwise_cons.mp hpairs).1 other hback (hikind.trans hkind) hstatus
          exact absurd hactive hnever
        | active =>
          obtain ⟨-, hids, -⟩ := SlicesToml.validate_ok_iff.mp hvalid
          have himem : i ∈ dir.slices.items := by
            rw [hsplit]
            exact List.mem_append_right _ List.mem_cons_self
          have hmem' : other ∈ dir.slices.items := by
            rw [hsplit]
            exact List.mem_append_right _ hmem
          rw [← hiid]
          exact (oneActive_iff hids).mp (hone m dir hdir) other hmem' i himem hactive hstatus
        | done => simp [SliceStatus.isOpen, ← histatus, hstatus] at hopen
        | split => simp [SliceStatus.isOpen, ← histatus, hstatus] at hopen
        | blocked => simp [SliceStatus.isOpen, ← histatus, hstatus] at hopen
        | deferred => simp [SliceStatus.isOpen, ← histatus, hstatus] at hopen

/-- An item put between others in order. -/
theorem InOrder.middle {front back : List SliceItem} {item : SliceItem}
    (h : InOrder (front ++ back))
    (hfront : item.status = .active → ∀ a ∈ front, a.kind = .slice → a.status ≠ .queued)
    (hback : item.kind = .slice → item.status = .queued → ∀ b ∈ back, b.status ≠ .active) :
    InOrder (front ++ item :: back) := by
  obtain ⟨hpairs, hpairs', hcross⟩ := List.pairwise_append.mp h
  refine List.pairwise_append.mpr ⟨hpairs, List.pairwise_cons.mpr ⟨?_, hpairs'⟩, ?_⟩
  · intro b hb hkind hqueued
    exact hback hkind hqueued b hb
  · intro a ha b hb hkind hqueued
    rcases List.mem_cons.mp hb with rfl | hb
    · intro hactive
      exact hfront hactive a ha hkind hqueued
    · exact hcross a ha b hb hkind hqueued

theorem InOrder.of_middle {front back : List SliceItem} {item : SliceItem}
    (h : InOrder (front ++ item :: back)) : InOrder (front ++ back) :=
  h.sublist ((List.sublist_cons_self item back).append_left front)

/-- Where nothing is active, any order is in order. -/
theorem InOrder.of_idle {items : List SliceItem} (h : ∀ i ∈ items, i.status ≠ .active) :
    InOrder items :=
  List.pairwise_of_forall_mem_list fun _ _ b hb _ _ => h b hb

theorem inOrder_insert {items : List SliceItem} {item : SliceItem} {i : Nat}
    (h : InOrder items) (hi : i ≤ items.length) (hidle : item.status ≠ .active)
    (hback : item.kind = .slice → item.status = .queued →
      ∀ b ∈ items.drop i, b.status ≠ .active) : InOrder (items.insertIdx i item) := by
  rw [Rows.insertIdx_eq hi]
  refine InOrder.middle ?_ (fun hactive => absurd hactive hidle) hback
  rwa [List.take_append_drop]

/-! ### Requests that keep the order -/

/-- The items behind the place an update leaves its item at. -/
def SliceUpdateArgs.itemsBehind (args : SliceUpdateArgs) (items : List SliceItem) :
    List SliceItem :=
  match parseMove args.moveSpec with
  | .error _ => []
  | .ok none => Rows.behind (·.id) args.id items
  | .ok (some position) =>
    match placeItem (Rows.erase (·.id) args.id items) position with
    | .error _ => []
    | .ok i => (Rows.erase (·.id) args.id items).drop i

/-- The request puts no queued slice in front of an active item: a new slice goes
behind it, an update leaves no queued slice before it, and a claim names a unit with
no queued slice before it. -/
def Op.KeepsOrder (g : Garden) : Op → Prop
  | .sliceInsert args => ∀ dir ∈ g.milestones.lookup args.milestone,
    ∀ position ∈ (parsePosition args.position args.ref).toOption,
    ∀ i ∈ (placeItem dir.slices.items position).toOption,
    ∀ b ∈ dir.slices.items.drop i, b.status ≠ .active
  | .sliceUpdate args => ∀ dir ∈ g.milestones.lookup args.milestone,
    ∀ item ∈ Rows.row? (·.id) args.id dir.slices.items,
    item.kind = .slice → args.status.getD item.status = .queued →
    ∀ b ∈ args.itemsBehind dir.slices.items, b.status ≠ .active
  | .claim entry (some unit) => ∀ dir ∈ g.milestones.lookup entry,
    ∀ a ∈ Rows.front (·.id) unit dir.slices.items, a.kind = .slice → a.status ≠ .queued
  | _ => True

instance (g : Garden) (op : Op) : Decidable (op.KeepsOrder g) := by
  unfold Op.KeepsOrder
  split <;> infer_instance

section order

variable {g : Garden} {items items' : List SliceItem}

/-- The place an update leaves its item at. -/
theorem moveItem_middle {args : SliceUpdateArgs} {position : Option Position}
    {item : SliceItem} (hids : (items.map (·.id)).Nodup)
    (hposition : parseMove args.moveSpec = .ok position)
    (hitem : Rows.row? (·.id) args.id items = some item)
    (h : moveItem args.id position items = .ok items') :
    ∃ front back, items' = front ++ item :: back ∧ (∀ a ∈ front, a.id ≠ args.id) ∧
      Rows.erase (·.id) args.id items = front ++ back ∧ back = args.itemsBehind items ∧
      (position.isSome = true → item.status ≠ .active) ∧
      (position = none → front = Rows.front (·.id) args.id items) := by
  cases position with
  | none =>
    obtain rfl := Except.ok.inj h
    obtain ⟨hrows, herase, -⟩ := Rows.eq_front_behind (f := id) hitem
    refine ⟨_, _, hrows, fun a ha => Rows.mem_front ha, herase, ?_, nofun, fun _ => rfl⟩
    rw [SliceUpdateArgs.itemsBehind, hposition]
  | some position =>
    simp only [moveItem, hitem, bind_ok_iff, ensure_ok_iff, refuse_ok_iff] at h
    obtain ⟨⟨⟩, -, ⟨⟩, ⟨hidle, -⟩, i, hi, h⟩ := h
    obtain rfl := Except.ok.inj h
    refine ⟨_, _, Rows.insertIdx_eq (placeItem_le hi), fun a ha => ?_,
      (List.take_append_drop _ _).symm, ?_, fun _ => hidle, nofun⟩
    · exact ((Rows.mem_erase hids).mp (List.mem_of_mem_take ha)).2
    · simp only [SliceUpdateArgs.itemsBehind, hposition, hi]

theorem setItemStatus_middle {id : String} {status : Option SliceStatus}
    {front back : List SliceItem} {item : SliceItem} (hfront : ∀ a ∈ front, a.id ≠ id)
    (hid : item.id = id)
    (h : setItemStatus id status (front ++ item :: back) = .ok items') :
    ∃ new, items' = front ++ new :: back ∧ new.kind = item.kind ∧
      new.status = status.getD item.status ∧ status ≠ some .active := by
  have hmodify (f : SliceItem → SliceItem) : Rows.modify (·.id) id f (front ++ item :: back) =
      front ++ f item :: back :=
    Rows.modify_append_cons hfront hid
  unfold setItemStatus at h
  split at h
  · exact ⟨item, (Except.ok.inj h).symm, rfl, rfl, nofun⟩
  · cases h
  · cases h
  · rw [hmodify] at h
    exact ⟨_, (Except.ok.inj h).symm, rfl, rfl, nofun⟩
  · rw [hmodify] at h
    exact ⟨_, (Except.ok.inj h).symm, rfl, rfl, nofun⟩
  · rw [hmodify] at h
    exact ⟨_, (Except.ok.inj h).symm, rfl, rfl, nofun⟩
  · rw [hmodify] at h
    exact ⟨_, (Except.ok.inj h).symm, rfl, rfl, nofun⟩

theorem ItemsStep.inOrder {op : Op} {milestone : String} {dir : MilestoneDir}
    (hdir : g.milestones.lookup milestone = some dir) (hguard : op.KeepsOrder g)
    (hids : (dir.slices.items.map (·.id)).Nodup) (hone : OneActive dir.slices.items)
    (horder : InOrder dir.slices.items) (h : ItemsStep g op milestone dir.slices.items items') :
    InOrder items' := by
  rw [oneActive_iff hids] at hone
  cases h with
  | @update args position _ moved _ _ hposition hid hmove hstatus =>
    obtain ⟨i, hi, hiid⟩ := List.mem_map.mp hid
    have hitem : Rows.row? (·.id) args.id dir.slices.items = some i := by
      rw [← hiid]
      exact Rows.row?_of_mem hids hi
    obtain ⟨front, back, rfl, hfront, herase, hback, hmoved, hplace⟩ :=
      moveItem_middle hids hposition hitem hmove
    obtain ⟨new, rfl, hkind, hnew, hnotactive⟩ := setItemStatus_middle hfront hiid hstatus
    obtain ⟨hrows, herase', -⟩ := Rows.eq_front_behind (f := id) hitem
    have horder' := horder
    rw [hrows] at horder'
    refine InOrder.middle (herase ▸ herase' ▸ horder'.of_middle) ?_ ?_
    · intro hactive a ha hakind haqueued
      have hnone : args.status = none := by
        cases hs : args.status with
        | none => rfl
        | some status =>
          rw [hnew, hs] at hactive
          exact absurd (hs.trans (congrArg some hactive)) hnotactive
      rw [hnew, hnone] at hactive
      cases position with
      | some position => exact hmoved rfl hactive
      | none =>
        rw [hplace rfl] at ha
        obtain ⟨-, -, hcross⟩ := List.pairwise_append.mp horder'
        exact hcross a ha i List.mem_cons_self hakind haqueued hactive
    · intro hslice hqueued b hb
      rw [hback] at hb
      exact hguard dir hdir i hitem (hkind ▸ hslice) (hnew ▸ hqueued) b hb
  | @claim entry unit _ _ hclaim =>
    obtain ⟨item, hitem, -, ⟨-, rfl⟩ | ⟨-, rfl⟩⟩ := claimItem_ok hclaim
    · obtain ⟨hrows, -, hmodify⟩ :=
        Rows.eq_front_behind (f := fun i : SliceItem => { i with status := .active }) hitem
      have horder' := horder
      rw [hrows] at horder'
      rw [hmodify]
      exact InOrder.middle horder'.of_middle (fun _ a ha hkind => hguard dir hdir a ha hkind)
        (fun _ hqueued => by cases hqueued)
    · exact horder
  | @setStatus _ unit _ _ status item _ hitem hstatus hcheck =>
    obtain ⟨hrows, -, hmodify⟩ := Rows.eq_front_behind (f := SliceItem.setStatus status) hitem
    obtain ⟨hmem, hunit⟩ := Rows.row?_some hitem
    have horder' := horder
    rw [hrows] at horder'
    rw [hmodify]
    refine InOrder.middle horder'.of_middle (fun hactive => ?_) fun hslice hqueued b hb => ?_
    · rw [setStatus_status] at hactive
      exact absurd hactive (sliceStatusOf_ne_active hstatus)
    · rw [setStatus_kind] at hslice
      simp only [checkUnitStatus, hslice, ensure_ok_iff] at hcheck
      intro hactive
      have hbmem : b ∈ dir.slices.items := by
        rw [hrows]
        exact List.mem_append_right _ (List.mem_cons_of_mem _ hb)
      have hsame := hone b hbmem item hmem hactive hcheck
      have hnodup := hids
      rw [hrows, List.map_append, List.map_cons] at hnodup
      have hcons := (List.nodup_append.mp hnodup).2.1
      exact (List.nodup_cons.mp hcons).1 (hsame ▸ List.mem_map_of_mem hb)
  | @followUps _ unit count item _ hitem _ =>
    have hshape : (Rows.modify (·.id) unit (fun i => { i with followUps := some count })
        dir.slices.items).map SliceItem.shape = dir.slices.items.map SliceItem.shape :=
      Rows.map_modify fun _ => rfl
    have hpairs : (dir.slices.items.map SliceItem.shape).Pairwise fun a b =>
        a.1 = .slice → a.2.2 = .queued → b.2.2 ≠ .active := List.pairwise_map.mpr horder
    rw [← hshape] at hpairs
    exact List.pairwise_map.mp hpairs
  | @split args _ _ _ hsplit =>
    obtain ⟨item, p, hitem, -, hactive, -, rfl⟩ := splitItems_ok hsplit
    obtain ⟨hmem, hid⟩ := Rows.row?_some hitem
    have hrows : Rows.Rewrites (·.id) args.slice (fun i : SliceItem => { i with status := .split })
        dir.slices.items
        (Rows.modify (·.id) args.slice (fun i => { i with status := .split }) dir.slices.items) :=
      .modify hids fun _ => rfl
    refine InOrder.of_idle fun i hi => ?_
    rcases List.eq_or_mem_of_mem_insertIdx hi with rfl | hi
    · simp
    · rcases (hrows.mem i).mp hi with ⟨hi, hne⟩ | ⟨i₀, -, -, rfl⟩
      · intro hi'
        exact hne ((hone i hi item hmem hi' hactive).trans hid)
      · simp

/-- What a guarded request leaves of a folder in order. -/
theorem DirStep.inOrder {op : Op} {milestone : String} {dir' : Option MilestoneDir}
    (hg : QueueInvariant g)
    (horders : ∀ m dir, g.milestones.lookup m = some dir → InOrder dir.slices.items)
    (hguard : op.KeepsOrder g) (h : DirStep g op milestone (g.milestones.lookup milestone) dir') :
    ∀ d, dir' = some d → InOrder d.slices.items := by
  have hnew (identity : String) (slices : List QueueSliceSpec) :
      InOrder (newDir identity slices).slices.items := by
    refine InOrder.of_idle fun i hi => ?_
    rw [newSlices_queued hi]
    exact nofun
  generalize hlookup : g.milestones.lookup milestone = dir at h
  cases h with
  | same =>
    rintro d rfl
    exact horders milestone d hlookup
  | @items _ _ d₀ _ hvalid hitems _ =>
    rintro d ⟨⟩
    obtain ⟨-, hids, -⟩ := SlicesToml.validate_ok_iff.mp hvalid
    exact ItemsStep.inOrder hlookup hguard hids (hg.oneActive _ _ hlookup)
      (horders _ _ hlookup) hitems
  | @insert args d₀ position i _ _ hposition _ hplace _ =>
    rintro d ⟨⟩
    have hposition' : position ∈ (parsePosition args.position args.ref).toOption := by
      rw [hposition]
      rfl
    have hplace' : i ∈ (placeItem d₀.slices.items position).toOption := by
      rw [hplace]
      rfl
    exact inOrder_insert (horders _ _ hlookup) (placeItem_le hplace) nofun
      fun _ _ => hguard d₀ hlookup position hposition' i hplace'
  | milestone =>
    rintro d ⟨⟩
    exact hnew _ _
  | sub =>
    rintro d ⟨⟩
    exact hnew _ _

end order

/-- The orders of a garden reached by guarded requests. -/
theorem inOrder_of_guarded {ops : List Op} {g : Garden}
    (h : queueSystem.Guarded (fun g op => op.KeepsOrder g) .empty ops g) :
    ∀ m dir, g.milestones.lookup m = some dir → InOrder dir.slices.items := by
  have hreach : ∀ {ops g}, queueSystem.Guarded (fun g op => op.KeepsOrder g) .empty ops g →
      queueSystem.Reachable g := fun h => ⟨.empty, _, rfl, h.run⟩
  induction h with
  | refl =>
    intro m dir hdir
    cases hdir
  | snoc hbefore hguard hstep ih =>
    intro m
    have hdirs := apply_dirs (queueSystem_step.mp hstep) m
    exact hdirs.inOrder (queueInvariant_of_reachable (hreach hbefore)) ih hguard

/-- **The pick and the writer agree.** In every reachable garden a picked unit is
refused exactly where another item of its order is active; and in every run whose
requests put no queued slice in front of an active item, whatever is picked can be
claimed. -/
theorem pick_claim_agree (models : ModelChain) (overlay : V2Overlay) (member : Member) :
    (∀ g, queueSystem.Reachable g → ∀ s pick, g.assemble models = some s →
      (pickV2 (s.applyV2Overlay overlay) member).picked = some pick →
      ((∃ g', queueV2Claim g pick.claimArgs.1 pick.claimArgs.2 = .ok g') ↔ pick.Alone g)) ∧
    ∀ ops g, queueSystem.Guarded (fun g op => op.KeepsOrder g) .empty ops g →
      ∀ s pick, g.assemble models = some s →
      (pickV2 (s.applyV2Overlay overlay) member).picked = some pick →
      ∃ g', queueV2Claim g pick.claimArgs.1 pick.claimArgs.2 = .ok g' := by
  constructor
  · intro g hreach s pick hs hpick
    exact pick_claim_iff (identities_of_reachable hreach)
      (overlay_shows overlay (assemble_shows hs)) hpick
  · intro ops g hguarded s pick hs hpick
    have hreach : queueSystem.Reachable g := ⟨.empty, ops, rfl, hguarded.run⟩
    have hshow := overlay_shows overlay (assemble_shows hs)
    refine (pick_claim_iff (identities_of_reachable hreach) hshow hpick).mpr ?_
    exact alone_of_inOrder hshow hpick (inOrder_of_guarded hguarded)
      (queueInvariant_of_reachable hreach).oneActive

/-- A milestone with its planning slice, claimed. -/
def plannedOps : List Op :=
  [.queueAddProject ⟨"app", "r", none, false⟩,
    .queueAddEntry ⟨none, .milestone, some "m", some "M", some "x", some "y", "app", none, [], none,
      none, [], false⟩ "t0",
    .claim "m" (some "001")]

def plainModels : ModelChain := fun _ _ => some none

/-- The claim of the slice that runs, once more. -/
theorem pick_claim_agree_planned : ∃ g s g', queueSystem.Guarded (fun g op => op.KeepsOrder g)
    .empty plannedOps g ∧ g.assemble plainModels = some s ∧
    (pickV2 s demoMember).picked = some ⟨"m", .slice "m" "001", none⟩ ∧
    queueV2Claim g "m" (some "001") = .ok g' := by
  have hshown : ((System.replay (fun g (op : Op) => if op.KeepsOrder g then
      (op.apply g).toOption else none) Garden.empty plannedOps).any fun g =>
        (g.assemble plainModels).any fun s =>
          (pickV2 s demoMember).picked = some ⟨"m", .slice "m" "001", none⟩) = true := by
    decide +kernel
  obtain ⟨g, hrun, hg⟩ := (Option.any_eq_true _ _).mp hshown
  obtain ⟨s, hs, hpick⟩ := (Option.any_eq_true _ _).mp hg
  have hpick' := of_decide_eq_true hpick
  have hguarded : queueSystem.Guarded _ .empty plannedOps g := System.replay_guarded hrun
  obtain ⟨g', hclaim⟩ := (pick_claim_agree plainModels ⟨[], []⟩ demoMember).2 plannedOps g hguarded s
    ⟨"m", .slice "m" "001", none⟩ hs hpick'
  exact ⟨g, s, g', hguarded, hs, hpick', hclaim⟩

/-- A slice put in front of the one that runs. -/
def shadowOp : Op := .sliceInsert ⟨"m", "next", "body", some "front", none, false⟩

/-- The pick takes the slice in front, and the writer refuses it for the one that
runs. -/
theorem pick_claim_agree_fails : ¬ ∀ g, queueSystem.Reachable g → ∀ models s overlay member pick,
    g.assemble models = some s →
    (pickV2 (s.applyV2Overlay overlay) member).picked = some pick →
    ∃ g', queueV2Claim g pick.claimArgs.1 pick.claimArgs.2 = .ok g' := by
  intro h
  obtain ⟨g, hreach, hg⟩ := exists_reachable (plannedOps ++ [shadowOp]) (fun g =>
    (g.assemble plainModels).any fun s =>
      decide ((pickV2 s demoMember).picked = some ⟨"m", .slice "m" "002", none⟩) &&
        (queueV2Claim g "m" (some "002")).toOption.isNone) (by decide +kernel)
  obtain ⟨s, hs, hboth⟩ := (Option.any_eq_true _ _).mp hg
  rw [Bool.and_eq_true] at hboth
  obtain ⟨g', hclaim⟩ := h g hreach plainModels s ⟨[], []⟩ demoMember
    ⟨"m", .slice "m" "002", none⟩ hs (of_decide_eq_true hboth.1)
  have hrefused := hboth.2
  rw [show queueV2Claim g "m" (some "002") = .ok g' from hclaim] at hrefused
  cases hrefused

end Softfig.Queue
