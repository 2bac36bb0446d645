import Softfig.Mount.Rotation

/-!
What commits and rotations keep, in every interleaving of their steps.

The invariant says of each thread that its snapshot has every entry staged up to its cutoff, and of
each commit that landed that its tree has them; so a rotation drops nothing that no commit holds.

- `Kept.step`: what every step keeps, unless it is one that loses something;
- `rotation_keeps`: where no such step is taken, what was staged last is staged still or in the tree
  of a commit that landed, the view is the union of the refs when no rotation is under way, and
  neither a commit nor its rotation changes what is read;
- `rotation_keeps_fails`: a commit drops a file staged at an excluded path that no commit holds.
-/

namespace Softfig.Mount

open Softfig.Lib
open Softfig.Store (Bytes Hash)
open Softfig.Vcs (FileName Path Chain ChainRegistry WalkSnapshot FileNode modeMask)

/-! ### Steps -/

section

variable {io : MountIo} {target : Hash} {s : MountWorld}

/-- A step of one thread that leaves the mount as it is. -/
theorem Kept.set (h : Kept io target s) {id : Nat} {thread : Thread}
    (hthread : thread.Kept io target s)
    (hviewed : s.inner.view = s.union target ∨ thread.Renews (s.union target) ∨
      s.RenewedBy target id) : Kept io target (s.set id thread) where
  composed := h.composed
  viewed := by
    refine hviewed.imp_right fun hrenewed => ?_
    refine (Function.exists_update_iff s.threads fun _ t => t.Renews (s.union target)).mpr ?_
    exact hrenewed
  threads := (Function.forall_update_iff s.threads fun _ t =>
    t.Kept io target (s.set id thread)).mpr
      ⟨hthread.quiet (.refl _) rfl rfl rfl, fun j _ => (h.threads j).quiet (.refl _) rfl rfl rfl⟩
  generations := h.generations
  staged := h.staged
  accounted := h.accounted

/-- A thread that renews nothing leaves the renewal to others. -/
theorem Kept.renewed (h : Kept io target s) {id : Nat}
    (hnot : ¬ (s.threads id).Renews (s.union target)) :
    s.inner.view = s.union target ∨ s.RenewedBy target id := by
  refine h.viewed.imp_right ?_
  rintro ⟨j, hj⟩
  refine ⟨j, ?_, hj⟩
  rintro rfl
  exact hnot hj

theorem Kept.set_of_not (h : Kept io target s) {id : Nat} {thread : Thread}
    (hthread : thread.Kept io target s) (hnot : ¬ (s.threads id).Renews (s.union target)) :
    Kept io target (s.set id thread) :=
  h.set hthread ((h.renewed hnot).imp_right Or.inr)

theorem Kept.stage (h : Kept io target s) (e : RepoPath × OverlayEntry) :
    Kept io target (s.stage e) := by
  obtain ⟨path, entry⟩ := e
  have hlater := Overlay.later_stage s.inner.overlay path entry
  have hlookup := Overlay.lookup_stage s.inner.overlay path entry
  refine ⟨h.composed, h.viewed, fun id => (h.threads id).quiet hlater rfl rfl rfl,
    fun q slot hq => ?_, fun q slot hq => ?_, fun q slot hq => ?_⟩
  · rcases hlater.entries q slot hq with hold | hnew
    · exact (h.generations q slot hold).trans hlater.generation
    · have hq : (s.inner.overlay.stage path entry).byPath.lookup q = some slot := hq
      rw [hlookup] at hq
      split_ifs at hq
      · cases hq
        exact Nat.le_refl _
      · exact (h.generations q slot hq).trans hlater.generation
  · have hq : (s.inner.overlay.stage path entry).byPath.lookup q = some slot := hq
    rw [hlookup] at hq
    split_ifs at hq with heq
    · cases hq
      rw [MountWorld.stage, heq]
      exact Function.update_self _ _ _
    · exact (Function.update_of_ne heq _ _).trans (h.staged q slot hq)
  · have hgoal : (s.stage (path, entry)).inner.overlay.byPath.lookup q =
        if q = path then some ⟨s.inner.overlay.generation + 1, entry⟩
        else s.inner.overlay.byPath.lookup q := hlookup q
    have hq : Function.update s.last path (some ⟨s.inner.overlay.generation + 1, entry⟩) q =
        some slot := hq
    rw [hgoal]
    by_cases heq : q = path
    · subst heq
      rw [Function.update_self] at hq
      exact Or.inl (by rw [if_pos rfl, hq])
    · rw [Function.update_of_ne heq] at hq
      rw [if_neg heq]
      exact h.accounted q slot hq

theorem Kept.stageAll (h : Kept io target s) (entries : List (RepoPath × OverlayEntry)) :
    Kept io target (entries.foldl MountWorld.stage s) := by
  induction entries generalizing s with
  | nil => exact h
  | cons e entries ih => exact ih (h.stage e)

/-- A collected snapshot has every staged entry. -/
theorem kept_assemble {ignore : Ignore} {registry : ChainRegistry} {snapshot : WalkSnapshot}
    (hsnap : assemble io s.inner ignore (enabledMountRoots registry) = some snapshot)
    (htidy : Tidy ⟨s.inner, registry⟩) (hignore : ∀ path content mode,
      s.inner.overlay.get path = some (.file content mode) → ignore.isIgnored path = false) :
    (Thread.captured snapshot).Kept io target s := by
  have hfiles := fun names file => htidy.fileAt_assemble (s := ⟨s.inner, registry⟩) hsnap names file
  refine ⟨s.inner.overlay.generation, ?_, Nat.le_refl _, fun path slot hlookup _ => ?_⟩
  · obtain ⟨resolved, -, heq⟩ := Option.bind_eq_some_iff.mp hsnap
    cases heq
    rfl
  · have hget : s.inner.overlay.get path = some slot.entry :=
      get_eq_some.mpr ⟨slot, hlookup, rfl⟩
    have hnone : slot.entry.bytes = none → snapshot.root.fileAt path.names = none := by
      intro hbytes
      cases hfile : snapshot.root.fileAt path.names with
      | none => rfl
      | some file =>
        obtain ⟨other, hnames, -, mode, content, hread, -⟩ := (hfiles _ _).mp hfile
        rw [RepoPath.names_injective hnames, readWorkfile_eq] at hread
        dsimp only at hread
        rw [hget] at hread
        dsimp only at hread
        rw [hbytes] at hread
        cases hread
    cases hentry : slot.entry with
    | file content mode =>
      rw [hentry] at hget
      refine (hfiles _ _).mpr
        ⟨path, rfl, hignore path content mode hget, mode, content, ?_, ?_, rfl⟩
      · rw [readWorkfile_eq]
        dsimp only
        rw [hget]
        rfl
      · dsimp only
        rw [Inner.currentMode, hget]
    | dir mode => exact hnone (by rw [hentry]; rfl)
    | removed => exact hnone (by rw [hentry]; rfl)

/-- A split snapshot gives each chain the entries it owns. -/
theorem kept_splitParts {snapshot : WalkSnapshot} (hcomposed : Composed s.refs s.registry)
    (hkept : (Thread.captured snapshot).Kept io target s)
    (hroots : ∀ f ∈ snapshot.files, s.registry.isEnabledMountRoot f.1 = false) :
    (Thread.committing (splitParts s.registry snapshot)).Kept io target s := by
  intro part hpart
  obtain ⟨piece, hpiece, rfl⟩ := List.mem_map.mp hpart
  have hkept : Covered s.inner.overlay snapshot.overlayGeneration fun path entry =>
    Holds (snapshot.root.fileAt path.names) entry := hkept
  have hgeneration : piece.2.overlayGeneration = snapshot.overlayGeneration := by
    rw [ChainRegistry.splitSnapshot_eq hcomposed.refNames] at hpiece
    obtain ⟨c, -, rfl⟩ := List.mem_map.mp hpiece
    rfl
  rw [← hgeneration] at hkept
  refine Covered.imp hkept fun n path slot _ _ _ hholds hown => ?_
  have hfile := (fileAt_of_mem_split hcomposed.device hcomposed.refNames hroots hpiece hown).2
  rw [Part.fileAt]
  dsimp only
  rw [hfile]
  exact hholds

/-- The state after a part landed. -/
def MountWorld.landedPart (s : MountWorld) (id : Nat) (part : Part) (rest : List Part)
    (tree : TreeView) : MountWorld :=
  { s.set id (.rotating ⟨some ⟨part, tree⟩, True, rest⟩) with
    refs := Function.update s.refs part.refName (some tree)
    landed := ⟨part, tree⟩ :: s.landed }

section Land

variable {id : Nat} {part : Part} {rest : List Part} {tree : TreeView}

/-- A path of the chain that committed has what its part has. -/
theorem committed_landed (hcomposed : Composed s.refs s.registry)
    (hstored : Landing.Stored io ⟨part, tree⟩) (hsame : part.registry = s.registry)
    {path : RepoPath} (hown : part.Owns path) :
    (s.landedPart id part rest tree).committed io target path = some (part.fileAt path) := by
  have hown' : (ownerOf s.registry path).refName = part.refName := by rw [← hsame]; exact hown
  have htree : (s.landedPart id part rest tree).refs
      (ownerOf (s.landedPart id part rest tree).registry path).refName = some tree := by
    refine Eq.trans (congrArg _ hown') ?_
    exact Function.update_self _ _ _
  have hcomposed' : Composed (s.landedPart id part rest tree).refs
      (s.landedPart id part rest tree).registry := hcomposed.update part.refName tree
  rw [committed_of_ref hcomposed' htree]
  refine Eq.trans ?_ (hstored path hown)
  rw [hsame]
  rfl

/-- A path of any other chain has what it had. -/
theorem committed_landed_of_ne (hcomposed : Composed s.refs s.registry) {path : RepoPath}
    (hown : (ownerOf s.registry path).refName ≠ part.refName) :
    (s.landedPart id part rest tree).committed io target path = s.committed io target path := by
  have hcomposed' : Composed (s.landedPart id part rest tree).refs
      (s.landedPart id part rest tree).registry := hcomposed.update part.refName tree
  refine committed_eq_of_ref hcomposed hcomposed' rfl ?_
  exact Function.update_of_ne hown _ _

/-- A commit keeps what other commits still rely on. -/
theorem Kept.next_land (h : Kept io target s) (hstored : Landing.Stored io ⟨part, tree⟩)
    (hfresh : s.Fresh io target part) (j : Nat) :
    Next io target (fun _ => False) s (s.landedPart id part rest tree) (s.threads j) := by
  refine ⟨.refl _, fun l hl => List.mem_cons_of_mem _ hl, Or.inl rfl, fun l hl hkept _ => ?_⟩
  obtain ⟨hsame, hcovered⟩ := hkept.undisturbed trivial
  refine ⟨hsame, hcovered.imp fun n path slot hcutoff hlookup hgen hbytes hown => ?_⟩
  by_cases href : l.part.refName = part.refName
  · have hpart : part.Owns path := by
      rw [Part.Owns, hfresh.1, ← hsame, ← href]
      exact hown
    rw [committed_landed h.composed hstored hfresh.1 hpart, Option.map_some]
    rcases hfresh.2 path hpart with hreads | ⟨slot', hlookup', -, hothers⟩
    · rw [← hreads]
      exact reads_of_get (get_eq_some.mpr ⟨slot, hlookup, rfl⟩)
    · rw [hlookup] at hlookup'
      cases hlookup'
      have hlt := hothers j l n hl href hcutoff
      omega
  · have hne : (ownerOf s.registry path).refName ≠ part.refName := by
      rw [← hsame]
      exact fun heq => href (hown.symm.trans heq)
    rw [committed_landed_of_ne h.composed hne]
    exact hbytes hown

/-- **A fresh part lands.** -/
theorem Kept.land (h : Kept io target s) (hthread : s.threads id = .committing (part :: rest))
    (hstored : Landing.Stored io ⟨part, tree⟩) (hfresh : s.Fresh io target part) :
    Kept io target (s.landedPart id part rest tree) := by
  have hparts : (Thread.committing (part :: rest)).Kept io target s := hthread ▸ h.threads id
  have hpart : part.Kept s := hparts part List.mem_cons_self
  refine ⟨h.composed.update part.refName tree, Or.inr ⟨id, ?_⟩, ?_, h.generations, h.staged, ?_⟩
  · have hself : (s.landedPart id part rest tree).threads id =
        .rotating ⟨some ⟨part, tree⟩, True, rest⟩ := Function.update_self _ _ _
    rw [hself]
    trivial
  · refine (Function.forall_update_iff s.threads fun _ t =>
      t.Kept io target (s.landedPart id part rest tree)).mpr ⟨⟨?_, ?_⟩, fun j _ => ?_⟩
    · exact fun other hother => hparts other (List.mem_cons_of_mem _ hother)
    · intro l hl
      cases hl
      refine ⟨hpart, List.mem_cons_self, hstored, fun _ => ⟨hfresh.1, hpart.imp ?_⟩⟩
      intro n path slot _ _ _ hholds hown
      rw [committed_landed h.composed hstored hfresh.1 hown, Option.map_some,
        bytes_of_holds (hholds hown)]
    · have hland : Next io target (fun _ => False) s (s.landedPart id part rest tree)
          (s.threads j) := h.next_land hstored hfresh j
      have hnext := (h.threads j).next hland
      rwa [disturb_nothing] at hnext
  · intro path slot hlast
    refine (h.accounted path slot hlast).imp_right ?_
    rintro ⟨l, hl, hhas⟩
    exact ⟨l, List.mem_cons_of_mem _ hl, hhas⟩

/-- **A commit changes nothing that is read.** -/
theorem reads_land (h : Kept io target s) (hstored : Landing.Stored io ⟨part, tree⟩)
    (hfresh : s.Fresh io target part) (path : RepoPath) :
    (s.landedPart id part rest tree).reads io target path = s.reads io target path := by
  cases hget : s.inner.overlay.get path with
  | some entry =>
    have hget' : (s.landedPart id part rest tree).inner.overlay.get path = some entry := hget
    rw [reads_of_get hget, reads_of_get hget']
  | none =>
    have hget' : (s.landedPart id part rest tree).inner.overlay.get path = none := hget
    by_cases hown : part.Owns path
    · rcases hfresh.2 path hown with hreads | ⟨slot, hlookup, -⟩
      · rw [reads_of_none hget', committed_landed h.composed hstored hfresh.1 hown, hreads]
        rfl
      · rw [Overlay.get, hlookup] at hget
        cases hget
    · have hne : (ownerOf s.registry path).refName ≠ part.refName := by
        rw [← hfresh.1]
        exact hown
      rw [reads_of_none hget, reads_of_none hget', committed_landed_of_ne h.composed hne]

end Land

section Install

variable {id : Nat} {r : TipRotation} {view : AList fun _ : RepoPath => Entry}
  {owners : ChainRegistry}

/-- The state after a view was installed. -/
def MountWorld.installed (s : MountWorld) (id : Nat) (r : TipRotation)
    (view : AList fun _ : RepoPath => Entry) (owners : ChainRegistry) : MountWorld :=
  { s.set id (.committing r.rest) with
    inner := ⟨view, r.absorb owners s.inner.overlay⟩ }

/-- An entry that a rotation drops: its commit landed, was cut after the entry was staged, is of the
chain that owns the path, and has the entry. -/
structure Absorbed (io : MountIo) (s : MountWorld) (r : TipRotation) (owners : ChainRegistry)
    (l : Landing) (path : RepoPath) (slot : Slot) : Prop where
  landing : r.landing = some l
  landed : l ∈ s.landed
  cutoff : ∃ n, l.part.cutoff = some n ∧ slot.generation ≤ n
  owner : (ownerOf owners path).refName = l.part.refName
  owns : l.part.Owns path
  has : l.Has io path slot.entry

/-- **What a rotation drops was absorbed** by its commit. -/
theorem Kept.absorbed (h : Kept io target s) (hthread : s.threads id = .built r view owners)
    {path : RepoPath} {slot : Slot}
    (hlookup : s.inner.overlay.byPath.lookup path = some slot) :
    (r.absorb owners s.inner.overlay).byPath.lookup path = some slot ∨
      (r.absorb owners s.inner.overlay).byPath.lookup path = none ∧
        ∃ l, Absorbed io s r owners l path slot := by
  have hbuilt : (Thread.built r view owners).Kept io target s := hthread ▸ h.threads id
  obtain ⟨hkept, howned⟩ := hbuilt
  unfold TipRotation.absorb
  split
  · exact Or.inl hlookup
  · rename_i l hl
    split
    · exact Or.inl hlookup
    · rename_i n hcutoff
      refine (lookup_removeAbsorbed hlookup).imp_right ?_
      rintro ⟨hnone, hgen, hown⟩
      have hown : (ownerOf owners path).refName = l.part.refName := of_decide_eq_true hown
      obtain ⟨m, hm, -, hcovered⟩ := (howned l hl).owned
      rw [hcutoff] at hm
      cases hm
      have howns := hcovered path slot hlookup hgen hown
      obtain ⟨hpart, hlanded, hstored, -⟩ := hkept.landing l hl
      obtain ⟨m, hm, -, hholds⟩ := hpart
      rw [hcutoff] at hm
      cases hm
      exact ⟨hnone, l, hl, hlanded, ⟨n, hcutoff, hgen⟩, hown, howns, _, hstored path howns,
        hholds path slot hlookup hgen howns⟩

/-- **A view is installed**, which is up to date or will be replaced. -/
theorem Kept.install (h : Kept io target s) (hthread : s.threads id = .built r view owners)
    (hviewed : view = s.union target ∨ s.RenewedBy target id) :
    Kept io target (s.installed id r view owners) := by
  have hlater := Overlay.later_absorb s.inner.overlay r owners
  have hbuilt : (Thread.built r view owners).Kept io target s := hthread ▸ h.threads id
  refine ⟨h.composed, hviewed.imp_right ?_, ?_, fun path slot hlookup => ?_,
    fun path slot hlookup => ?_, fun path slot hlast => ?_⟩
  · rintro ⟨j, hne, hj⟩
    exact (Function.exists_update_iff s.threads fun _ t => t.Renews (s.union target)).mpr
      (Or.inr ⟨j, hne, hj⟩)
  · refine (Function.forall_update_iff s.threads fun _ t =>
      t.Kept io target (s.installed id r view owners)).mpr ⟨?_, fun j _ => ?_⟩
    · exact fun part hpart => (hbuilt.1.rest part hpart).next hlater
    · exact (h.threads j).quiet hlater rfl rfl rfl
  · exact (h.generations path slot (lookup_of_absorb hlookup)).trans hlater.generation
  · exact h.staged path slot (lookup_of_absorb hlookup)
  · rcases h.accounted path slot hlast with hlookup | hlanded
    · refine (h.absorbed hthread hlookup).imp_right ?_
      rintro ⟨-, l, habsorbed⟩
      exact ⟨l, habsorbed.landed, habsorbed.owns, habsorbed.has⟩
    · exact Or.inr hlanded

end Install

/-! ### Runs -/

/-- The state after the refs or the registry moved under a new rotation. -/
def MountWorld.moved (s : MountWorld) (id : Nat) (refs : String → Option TreeView)
    (registry : ChainRegistry) (moved : String → Prop) : MountWorld :=
  { s with
    refs := refs
    registry := registry
    threads := Function.update (fun j => (s.threads j).disturb moved) id
      (.rotating ⟨none, True, []⟩) }

/-- A ref advance from the network, or a registry swap. -/
theorem Kept.move {refs : String → Option TreeView} {registry : ChainRegistry}
    {moved : String → Prop} (h : Kept io target s) (id : Nat) (hcomposed : Composed refs registry)
    (hregistry : registry = s.registry ∨ ∀ refName, moved refName)
    (hrefs : ∀ refName, ¬ moved refName → refs refName = s.refs refName) :
    Kept io target (s.moved id refs registry moved) := by
  refine ⟨hcomposed, Or.inr ⟨id, ?_⟩, ?_, h.generations, h.staged, h.accounted⟩
  · have hself : (s.moved id refs registry moved).threads id = .rotating ⟨none, True, []⟩ := by
      simp only [MountWorld.moved, Function.update_self]
    rw [hself]
    trivial
  · refine (Function.forall_update_iff (fun j => (s.threads j).disturb moved) fun _ t =>
      t.Kept io target (s.moved id refs registry moved)).mpr ⟨⟨?_, ?_⟩, fun j _ =>
        (h.threads j).next ?_⟩
    · intro part hpart
      cases hpart
    · intro l hl
      cases hl
    refine ⟨.refl _, fun l hl => hl, hregistry, fun l _ hkept hstill => ?_⟩
    obtain ⟨hsame, hcovered⟩ := hkept.undisturbed trivial
    have hregistry : registry = s.registry := hregistry.resolve_right fun hall => hstill (hall _)
    refine ⟨hsame.trans hregistry.symm, hcovered.imp fun n path slot _ _ _ hbytes hown => ?_⟩
    have href : (s.moved id refs registry moved).refs (ownerOf s.registry path).refName =
        s.refs (ownerOf s.registry path).refName := by
      have hown : (ownerOf s.registry path).refName = l.part.refName := by
        rw [← hsame]
        exact hown
      rw [hown]
      exact hrefs _ hstill
    rw [committed_eq_of_ref h.composed hcomposed hregistry href]
    exact hbytes hown

/-- **A sound step keeps everything.** -/
theorem Kept.step {s' : MountWorld} (h : Kept io target s) {event : MountEvent}
    (hsound : event.Sound io target s) (hstored : event.Stored io s)
    (hact : s.act io target event = some s') : Kept io target s' := by
  cases event with
  | stage entries =>
    cases hact
    exact h.stageAll entries
  | readIgnore id =>
    simp only [MountWorld.act] at hact
    split at hact
    · rename_i hthread
      obtain ⟨ignore, -, rfl⟩ := Option.map_eq_some_iff.mp hact
      exact h.set_of_not trivial (by rw [hthread]; exact not_false)
    · cases hact
  | readRoots id =>
    simp only [MountWorld.act] at hact
    split at hact
    · rename_i hthread
      cases hact
      exact h.set_of_not trivial (by rw [hthread]; exact not_false)
    · cases hact
  | collect id =>
    simp only [MountWorld.act] at hact
    split at hact
    · rename_i ignore registry hthread
      obtain ⟨snapshot, hsnap, rfl⟩ := Option.map_eq_some_iff.mp hact
      obtain ⟨htidy, hignore⟩ := hsound ignore registry hthread
      exact h.set_of_not (kept_assemble hsnap htidy hignore) (by rw [hthread]; exact not_false)
    · cases hact
  | split id =>
    simp only [MountWorld.act] at hact
    split at hact
    · rename_i snapshot hthread
      cases hact
      have hkept : (Thread.captured snapshot).Kept io target s := hthread ▸ h.threads id
      exact h.set_of_not (kept_splitParts h.composed hkept (hsound snapshot hthread))
        (by rw [hthread]; exact not_false)
    · cases hact
  | skip id =>
    simp only [MountWorld.act] at hact
    split at hact
    · rename_i part rest hthread
      cases hact
      have hkept : (Thread.committing (part :: rest)).Kept io target s := hthread ▸ h.threads id
      exact h.set_of_not (fun other hother => hkept other (List.mem_cons_of_mem _ hother))
        (by rw [hthread]; exact not_false)
    · cases hact
  | land id tree =>
    simp only [MountWorld.act] at hact
    split at hact
    · rename_i part rest hthread
      cases hact
      exact h.land hthread (hstored part rest hthread) (hsound part rest hthread)
    · cases hact
  | finish id =>
    simp only [MountWorld.act] at hact
    split_ifs at hact with hrotating
    cases hact
    exact h.set_of_not trivial fun hrenews => hrotating hrenews.isRotating
  | build id =>
    simp only [MountWorld.act] at hact
    split at hact
    · rename_i rotation hthread
      cases hact
      have hkept : (Thread.rotating rotation).Kept io target s := hthread ▸ h.threads id
      refine h.set ⟨hkept, fun l hl => ⟨?_, fun _ => rfl⟩⟩ (Or.inr (Or.inl rfl))
      exact (hkept.landing l hl).part.imp fun n path slot hcutoff hlookup hgen _ hown =>
        hsound rotation l n hthread hl hcutoff path slot hlookup hgen hown
    · cases hact
  | buildFails id =>
    simp only [MountWorld.act] at hact
    split at hact
    · rename_i rotation hthread
      cases hact
      have hkept : (Thread.rotating rotation).Kept io target s := hthread ▸ h.threads id
      exact h.set hkept.rest (hsound.imp_right Or.inr)
    · cases hact
  | install id =>
    simp only [MountWorld.act] at hact
    split at hact
    · rename_i rotation view owners hthread
      cases hact
      exact h.install hthread (hsound rotation view owners hthread)
    · cases hact
  | advance id refName tree =>
    simp only [MountWorld.act] at hact
    split at hact
    · cases hact
      exact h.move id (h.composed.update refName tree) (Or.inl rfl) fun other hne =>
        Function.update_of_ne hne _ _
    · cases hact
  | swap id registry =>
    simp only [MountWorld.act] at hact
    split at hact
    · cases hact
      exact h.move id hsound (Or.inr fun _ => trivial) fun _ hne => absurd trivial hne
    · cases hact

/-- A quiet rotation changes nothing that is read. -/
theorem Kept.reads_install (h : Kept io target s) {id : Nat} {r : TipRotation}
    {view : AList fun _ : RepoPath => Entry} {owners : ChainRegistry}
    (hthread : s.threads id = .built r view owners) (hquiet : r.quiet) (path : RepoPath) :
    (s.installed id r view owners).reads io target path = s.reads io target path := by
  have hbuilt : (Thread.built r view owners).Kept io target s := hthread ▸ h.threads id
  have hcommitted : (s.installed id r view owners).committed io target path =
      s.committed io target path := rfl
  cases hlookup : s.inner.overlay.byPath.lookup path with
  | none =>
    have hnone : (r.absorb owners s.inner.overlay).byPath.lookup path = none := by
      cases hfound : (r.absorb owners s.inner.overlay).byPath.lookup path with
      | none => rfl
      | some slot =>
        rw [lookup_of_absorb hfound] at hlookup
        cases hlookup
    have hget : s.inner.overlay.get path = none := by rw [Overlay.get, hlookup]; rfl
    have hget' : (s.installed id r view owners).inner.overlay.get path = none := by
      refine Eq.trans (congrArg (Option.map Slot.entry) hnone) rfl
    rw [reads_of_none hget, reads_of_none hget', hcommitted]
  | some slot =>
    rw [reads_of_get (get_eq_some.mpr ⟨slot, hlookup, rfl⟩)]
    rcases h.absorbed hthread hlookup with hkept | ⟨hnone, l, habsorbed⟩
    · exact reads_of_get (get_eq_some.mpr ⟨slot, hkept, rfl⟩)
    · have hget' : (s.installed id r view owners).inner.overlay.get path = none := by
        refine Eq.trans (congrArg (Option.map Slot.entry) hnone) rfl
      obtain ⟨n, hn, hgen⟩ := habsorbed.cutoff
      obtain ⟨-, m, hm, -, hcovered⟩ :=
        (hbuilt.1.landing l habsorbed.landing).undisturbed hquiet
      rw [hn] at hm
      cases hm
      rw [reads_of_none hget', hcommitted]
      exact hcovered path slot hlookup hgen habsorbed.owns

/-- What holds of a mount at any time: what was staged last at a path is staged still or in the tree
of a commit that landed, and while no rotation is under way the view is the union of the refs. -/
structure Accounted (io : MountIo) (target : Hash) (s : MountWorld) : Prop where
  last : ∀ path slot, s.last path = some slot →
    s.inner.overlay.byPath.lookup path = some slot ∨
      ∃ l ∈ s.landed, l.part.Owns path ∧ l.Has io path slot.entry
  viewed : (∀ id, (s.threads id).isRotating = false) →
    s.inner.view = s.union target ∧
      ∀ path, readWorkfile io s.inner path = s.reads io target path

/-- What a step leaves: an entry stays, is staged again or is absorbed by the commit of a rotation,
and neither a commit nor its rotation changes what is read. -/
structure Harmless (io : MountIo) (target : Hash) (s : MountWorld) (event : MountEvent)
    (s' : MountWorld) : Prop where
  entries : ∀ path slot, s.inner.overlay.byPath.lookup path = some slot →
    s'.inner.overlay.byPath.lookup path = some slot ∨
    (∃ slot', s'.inner.overlay.byPath.lookup path = some slot' ∧
      slot.generation < slot'.generation) ∨
    s'.inner.overlay.byPath.lookup path = none ∧ ∃ id r view owners l, event = .install id ∧
      s.threads id = .built r view owners ∧ Absorbed io s r owners l path slot
  landed : ∀ id tree, event = .land id tree →
    ∀ path, s'.reads io target path = s.reads io target path
  installed : ∀ id r view owners, event = .install id → s.threads id = .built r view owners →
    r.quiet → ∀ path, s'.reads io target path = s.reads io target path

theorem Kept.toAccounted (h : Kept io target s) : Accounted io target s where
  last := h.accounted
  viewed := by
    intro hidle
    have hview : s.inner.view = s.union target := by
      refine h.viewed.resolve_right ?_
      rintro ⟨j, hj⟩
      have hrotating := hj.isRotating
      rw [hidle j] at hrotating
      cases hrotating
    exact ⟨hview, readWorkfile_of_view hview⟩

/-- Entries that are staged over have an earlier generation. -/
theorem lookup_stageAll (hgenerations : ∀ path slot,
      s.inner.overlay.byPath.lookup path = some slot →
        slot.generation ≤ s.inner.overlay.generation)
    (entries : List (RepoPath × OverlayEntry)) {path : RepoPath} {slot : Slot}
    (hlookup : s.inner.overlay.byPath.lookup path = some slot) :
    (entries.foldl MountWorld.stage s).inner.overlay.byPath.lookup path = some slot ∨
      ∃ slot', (entries.foldl MountWorld.stage s).inner.overlay.byPath.lookup path = some slot' ∧
        slot.generation < slot'.generation := by
  have hnew : ∀ (entries : List (RepoPath × OverlayEntry)) (s : MountWorld) (slot : Slot),
      s.inner.overlay.byPath.lookup path = some slot →
        slot.generation ≤ s.inner.overlay.generation →
      ∃ slot', (entries.foldl MountWorld.stage s).inner.overlay.byPath.lookup path = some slot' ∧
        (slot' = slot ∨ slot.generation < slot'.generation) := by
    intro entries
    induction entries with
    | nil => exact fun s slot hslot _ => ⟨slot, hslot, Or.inl rfl⟩
    | cons e entries ih =>
      intro s slot hslot hle
      have hstage := Overlay.lookup_stage s.inner.overlay e.1 e.2 path
      by_cases heq : path = e.1
      · rw [if_pos heq] at hstage
        obtain ⟨slot', hslot', hlater⟩ := ih (s.stage e) _ hstage (Nat.le_refl _)
        refine ⟨slot', hslot', Or.inr ?_⟩
        rcases hlater with rfl | hlt
        · exact Nat.lt_succ_of_le hle
        · exact Nat.lt_trans (Nat.lt_succ_of_le hle) hlt
      · rw [if_neg heq, hslot] at hstage
        exact ih (s.stage e) slot hstage (hle.trans (Nat.le_succ _))
  obtain ⟨slot', hslot', rfl | hlt⟩ := hnew entries s slot hlookup (hgenerations path slot hlookup)
  · exact Or.inl hslot'
  · exact Or.inr ⟨slot', hslot', hlt⟩

/-- Only staging and the installation of a view change the mount. -/
theorem inner_of_act {s' : MountWorld} {event : MountEvent}
    (hstage : ∀ entries, event ≠ .stage entries) (hinstall : ∀ id, event ≠ .install id)
    (hact : s.act io target event = some s') : s'.inner = s.inner := by
  cases event with
  | stage entries => exact absurd rfl (hstage entries)
  | install id => exact absurd rfl (hinstall id)
  | readIgnore id =>
    simp only [MountWorld.act] at hact
    split at hact
    · obtain ⟨ignore, -, rfl⟩ := Option.map_eq_some_iff.mp hact
      rfl
    · cases hact
  | collect id =>
    simp only [MountWorld.act] at hact
    split at hact
    · obtain ⟨snapshot, -, rfl⟩ := Option.map_eq_some_iff.mp hact
      rfl
    · cases hact
  | finish id =>
    simp only [MountWorld.act] at hact
    split_ifs at hact
    cases hact
    rfl
  | _ =>
    simp only [MountWorld.act] at hact
    split at hact
    · cases hact
      rfl
    · cases hact

/-- **A sound step loses nothing.** -/
theorem Kept.harmless {s' : MountWorld} (h : Kept io target s) {event : MountEvent}
    (hsound : event.Sound io target s) (hstored : event.Stored io s)
    (hact : s.act io target event = some s') : Harmless io target s event s' := by
  refine ⟨fun path slot hlookup => ?_, ?_, ?_⟩
  · by_cases hstage : ∃ entries, event = .stage entries
    · obtain ⟨entries, rfl⟩ := hstage
      cases hact
      exact (lookup_stageAll h.generations entries hlookup).imp_right Or.inl
    · by_cases hinstall : ∃ id, event = .install id
      · obtain ⟨id, rfl⟩ := hinstall
        simp only [MountWorld.act] at hact
        split at hact
        · rename_i r view owners hthread
          cases hact
          refine (h.absorbed hthread hlookup).imp_right fun habsorbed => Or.inr ?_
          obtain ⟨hnone, l, habsorbed⟩ := habsorbed
          exact ⟨hnone, id, r, view, owners, l, rfl, hthread, habsorbed⟩
        · cases hact
      · rw [inner_of_act (not_exists.mp hstage) (not_exists.mp hinstall) hact]
        exact Or.inl hlookup
  · rintro id tree rfl path
    simp only [MountWorld.act] at hact
    split at hact
    · rename_i part rest hthread
      cases hact
      exact reads_land h (hstored part rest hthread) (hsound part rest hthread) path
    · cases hact
  · rintro id r view owners rfl hthread hquiet path
    simp only [MountWorld.act, hthread] at hact
    cases hact
    exact h.reads_install hthread hquiet path

theorem kept_init (h : s.Init target) : Kept io target s := by
  have hlookup : ∀ path, s.inner.overlay.byPath.lookup path = none := by
    intro path
    rw [h.overlay]
    rfl
  refine ⟨h.composed, Or.inl h.view, fun id => ?_, fun path slot hslot => ?_,
    fun path slot hslot => ?_, fun path slot hslot => ?_⟩
  · rw [h.threads id]
    trivial
  · rw [hlookup path] at hslot
    cases hslot
  · rw [hlookup path] at hslot
    cases hslot
  · rw [h.last path] at hslot
    cases hslot

theorem Kept.run {s₀ : MountWorld} {events : List MountEvent}
    (hinit : (rotationSystem io target).init s₀)
    (hrun : (rotationSystem io target).Guarded (fun s event => event.Sound io target s)
      s₀ events s) : Kept io target s := by
  induction hrun with
  | refl => exact kept_init hinit
  | snoc _ hsound hstep ih => exact ih.step hsound hstep.1 hstep.2

end

/-! ### A commit and its rotation -/

section

def noteFile : FileName := ⟨"note.md", by decide⟩

def claudeDir : FileName := ⟨".claude", by decide⟩

def draftFile : FileName := ⟨"draft.md", by decide⟩

/-- A tree of one file. -/
def oneFile : TreeView where
  byPath := (emptyView ⟨[]⟩).insert [noteFile] ⟨.blob, 0o644, ⟨[1]⟩⟩
  rooted := by
    intro dir name hsome
    refine Or.inl ?_
    by_contra hdir
    dsimp only at hsome
    rw [AList.lookup_insert_ne, emptyView, AList.lookup_insert_ne] at hsome
    · cases hsome
    · simp
    · intro heq
      cases dir with
      | nil => exact hdir rfl
      | cons first rest => simp at heq
  rootDir := by
    intro entry hentry
    cases hentry
    rfl

/-- A tree of nothing. -/
def noFiles : TreeView where
  byPath := emptyView ⟨[]⟩
  rooted := by
    intro dir name hsome
    dsimp only at hsome
    rw [emptyView, AList.lookup_insert_ne (by simp)] at hsome
    cases hsome
  rootDir := by
    intro entry hentry
    cases hentry
    rfl

/-- A store whose objects are named by their content. -/
def plainIo : MountIo :=
  ⟨fun target => some target.bytes, fun _ cipher => some cipher, some, fun _ => []⟩

def demoWorld : MountWorld where
  inner := ⟨buildUnion ⟨[]⟩ (fun _ => some oneFile) .deviceOnly, .new⟩
  registry := .deviceOnly
  refs := fun _ => some oneFile
  threads := fun _ => .idle
  last := fun _ => none
  landed := []

theorem demoWorld_init : (rotationSystem plainIo ⟨[]⟩).init demoWorld :=
  ⟨rfl, rfl, ⟨rfl, by decide, List.Pairwise.nil, fun _ _ => rfl⟩, fun _ => rfl, fun _ => rfl⟩

/-- The world once the note is removed and these entries are staged. -/
def stagedWorld (entries : List (RepoPath × OverlayEntry)) : MountWorld :=
  (([noteFile], .removed) :: entries).foldl MountWorld.stage demoWorld

/-- A snapshot of nothing, and its part for the device. -/
def emptySnapshot (n : Nat) : WalkSnapshot :=
  { WalkSnapshot.empty with overlayGeneration := some n }

def emptyPart (n : Nat) : Part := ⟨"tip", emptySnapshot n, .deviceOnly⟩

/-- The rotation of a commit of nothing. -/
def emptyRotation (n : Nat) : TipRotation := ⟨some ⟨emptyPart n, noFiles⟩, True, []⟩

/-- The world when the part is to land. -/
def splitWorld (entries : List (RepoPath × OverlayEntry)) (n : Nat) : MountWorld :=
  (stagedWorld entries).set 0 (.committing [emptyPart n])

def committedWorld (entries : List (RepoPath × OverlayEntry)) (n : Nat) : MountWorld :=
  (splitWorld entries n).landedPart 0 (emptyPart n) [] noFiles

def builtWorld (entries : List (RepoPath × OverlayEntry)) (n : Nat) : MountWorld :=
  (committedWorld entries n).set 0
    (.built (emptyRotation n) ((committedWorld entries n).union ⟨[]⟩) .deviceOnly)

/-- The world once the view was installed. -/
def rotatedWorld (entries : List (RepoPath × OverlayEntry)) (n : Nat) : MountWorld :=
  (builtWorld entries n).installed 0 (emptyRotation n) ((committedWorld entries n).union ⟨[]⟩)
    .deviceOnly

def draftEntries : List (RepoPath × OverlayEntry) :=
  [([claudeDir], .dir 0o040755), ([claudeDir, draftFile], .file [1] 0o100644)]

theorem blobAt_noFiles (path : RepoPath) : blobAt noFiles.byPath path = none := by
  by_cases hpath : path = []
  · subst hpath
    rfl
  · have hnone : noFiles.byPath.lookup path = none :=
      (AList.lookup_insert_ne hpath).trans rfl
    rw [blobAt, hnone]
    rfl

theorem readAt_noFiles (registry : ChainRegistry) (path : RepoPath) :
    noFiles.readAt plainIo registry path = some none := by
  rw [TreeView.readAt, blobAt_noFiles]
  rfl

theorem fileAt_emptyPart (n : Nat) (path : RepoPath) : (emptyPart n).fileAt path = none :=
  PathTree.Forest.fileAt_nil _

theorem stored_emptyPart (n : Nat) : Landing.Stored plainIo ⟨emptyPart n, noFiles⟩ := by
  intro path _
  rw [readAt_noFiles, fileAt_emptyPart]

/-- What a commit of nothing and its rotation go through. -/
def commitEvents : List MountEvent :=
  [.readIgnore 0, .readRoots 0, .collect 0, .split 0, .land 0 noFiles, .build 0, .install 0]

/-- Staging touches nothing else. -/
theorem foldl_stage (entries : List (RepoPath × OverlayEntry)) (s : MountWorld) :
    (entries.foldl MountWorld.stage s).threads = s.threads ∧
      (entries.foldl MountWorld.stage s).registry = s.registry := by
  induction entries generalizing s with
  | nil => exact ⟨rfl, rfl⟩
  | cons e entries ih => exact ih (s.stage e)

theorem threads_set_self (s : MountWorld) (id : Nat) (thread : Thread) :
    (s.set id thread).threads id = thread := by
  simp only [MountWorld.set, Function.update_self]

theorem set_set (s : MountWorld) (id : Nat) (first second : Thread) :
    (s.set id first).set id second = s.set id second := by
  simp only [MountWorld.set, Function.update_idem]

section Runs

variable {guard : MountWorld → MountEvent → Prop} {entries : List (RepoPath × OverlayEntry)}
  {n : Nat}

/-- A run of them, where the snapshot is empty. -/
theorem guarded_rotatedWorld
    (hignore : inmemIgnore plainIo (stagedWorld entries).inner = some .builtin)
    (hsnap : assemble plainIo (stagedWorld entries).inner .builtin [] = some (emptySnapshot n))
    (hguard : guard (stagedWorld entries) (.readIgnore 0) ∧
      guard ((stagedWorld entries).set 0 (.ignoring .builtin)) (.readRoots 0) ∧
      guard ((stagedWorld entries).set 0 (.rooting .builtin .deviceOnly)) (.collect 0) ∧
      guard ((stagedWorld entries).set 0 (.captured (emptySnapshot n))) (.split 0) ∧
      guard (splitWorld entries n) (.land 0 noFiles) ∧
      guard (committedWorld entries n) (.build 0) ∧ guard (builtWorld entries n) (.install 0)) :
    (rotationSystem plainIo ⟨[]⟩).Guarded guard (stagedWorld entries) commitEvents
      (rotatedWorld entries n) := by
  obtain ⟨hread, hroots, hcollect, hsplit, hland, hbuild, hinstall⟩ := hguard
  obtain ⟨hthreads, hregistry⟩ := foldl_stage (([noteFile], .removed) :: entries) demoWorld
  have hidle : (stagedWorld entries).threads 0 = .idle := congrFun hthreads 0
  have hdevice : (stagedWorld entries).registry = .deviceOnly := hregistry
  have hself := fun s => threads_set_self s 0
  have hset : ∀ (first second : Thread), ((stagedWorld entries).set 0 first).set 0 second =
    (stagedWorld entries).set 0 second := set_set (stagedWorld entries) 0
  have hread' : (stagedWorld entries).act plainIo ⟨[]⟩ (.readIgnore 0) =
      some ((stagedWorld entries).set 0 (.ignoring .builtin)) := by
    simp only [MountWorld.act, hidle, hignore, Option.map_some]
  have hroots' : ((stagedWorld entries).set 0 (.ignoring .builtin)).act plainIo ⟨[]⟩
      (.readRoots 0) = some ((stagedWorld entries).set 0 (.rooting .builtin .deviceOnly)) := by
    simp only [MountWorld.act, hself, hset, ← hdevice]
    rfl
  have hcollect' : ((stagedWorld entries).set 0 (.rooting .builtin .deviceOnly)).act plainIo ⟨[]⟩
      (.collect 0) = some ((stagedWorld entries).set 0 (.captured (emptySnapshot n))) := by
    simp only [MountWorld.act, hself, hset]
    exact congrArg (Option.map _) hsnap
  have hsplit' : ((stagedWorld entries).set 0 (.captured (emptySnapshot n))).act plainIo ⟨[]⟩
      (.split 0) = some (splitWorld entries n) := by
    simp only [MountWorld.act, hself, hset, splitWorld]
    have hparts : splitParts ((stagedWorld entries).set 0
        (.captured (emptySnapshot n))).registry (emptySnapshot n) = [emptyPart n] :=
      congrArg (splitParts · (emptySnapshot n)) hdevice
    rw [hparts]
  have hland' : (splitWorld entries n).act plainIo ⟨[]⟩ (.land 0 noFiles) =
      some (committedWorld entries n) := by
    simp only [MountWorld.act, splitWorld, hself]
    rfl
  have hrotating : (committedWorld entries n).threads 0 = .rotating (emptyRotation n) :=
    hself (splitWorld entries n) _
  have hbuild' : (committedWorld entries n).act plainIo ⟨[]⟩ (.build 0) =
      some (builtWorld entries n) := by
    have hregistry : (committedWorld entries n).registry = .deviceOnly := hdevice
    simp only [MountWorld.act, hrotating, hregistry, builtWorld]
  have hinstall' : (builtWorld entries n).act plainIo ⟨[]⟩ (.install 0) =
      some (rotatedWorld entries n) := by
    simp only [MountWorld.act, builtWorld, hself]
    rfl
  have hstored : MountEvent.Stored plainIo (splitWorld entries n) (.land 0 noFiles) := by
    intro part rest hpart
    rw [splitWorld, hself] at hpart
    cases hpart
    exact stored_emptyPart n
  have hstart : (rotationSystem plainIo ⟨[]⟩).Guarded guard (stagedWorld entries) []
    (stagedWorld entries) := .refl _
  exact ((((((hstart.snoc hread ⟨trivial, hread'⟩).snoc hroots ⟨trivial, hroots'⟩).snoc hcollect
    ⟨trivial, hcollect'⟩).snoc hsplit ⟨trivial, hsplit'⟩).snoc hland ⟨hstored, hland'⟩).snoc hbuild
      ⟨trivial, hbuild'⟩).snoc hinstall ⟨trivial, hinstall'⟩

end Runs

theorem live_stagedWorld (path : RepoPath) : (stagedWorld []).inner.live path =
    if path = [] then some .dir else none := by
  have hlive : (stagedWorld []).inner.live path =
      if path = [noteFile] then none else (oneFile.byPath.lookup path).map Entry.live :=
    live_stage demoWorld.inner [noteFile] .removed path
  rw [hlive]
  split_ifs with hnote hroot hroot
  · cases hnote.symm.trans hroot
  · rfl
  · rw [hroot]
    rfl
  · have hnone : oneFile.byPath.lookup path = none :=
      (AList.lookup_insert_ne hnote).trans ((AList.lookup_insert_ne hroot).trans rfl)
    rw [hnone]
    rfl

theorem tidy_stagedWorld : Tidy ⟨(stagedWorld []).inner, .deviceOnly⟩ where
  rooted := by
    intro dir name hsome
    dsimp only at hsome
    rw [live_stagedWorld, if_neg (by simp)] at hsome
    cases hsome
  root := by
    intro source hfile
    dsimp only at hfile
    rw [live_stagedWorld, if_pos rfl] at hfile
    cases hfile
  noStray := fun path entry _ => by
    cases entry <;> rfl

/-- Every step of the removal is sound. -/
theorem sound_removal : MountEvent.Sound plainIo ⟨[]⟩
      ((stagedWorld []).set 0 (.rooting .builtin .deviceOnly)) (.collect 0) ∧
    MountEvent.Sound plainIo ⟨[]⟩ ((stagedWorld []).set 0 (.captured (emptySnapshot 1)))
      (.split 0) ∧
    MountEvent.Sound plainIo ⟨[]⟩ (splitWorld [] 1) (.land 0 noFiles) ∧
    MountEvent.Sound plainIo ⟨[]⟩ (committedWorld [] 1) (.build 0) ∧
    MountEvent.Sound plainIo ⟨[]⟩ (builtWorld [] 1) (.install 0) := by
  refine ⟨?_, ?_, ?_, ?_, ?_⟩
  · intro ignore registry hthread
    rw [threads_set_self] at hthread
    cases hthread
    refine ⟨tidy_stagedWorld, fun path content mode hget => ?_⟩
    have hget : (Overlay.new.stage [noteFile] .removed).get path = some (.file content mode) := hget
    rw [Overlay.get_stage] at hget
    split_ifs at hget
    · cases hget
    · cases hget
  · intro snapshot hthread f hf
    rw [threads_set_self] at hthread
    cases hthread
    cases hf
  · intro part rest hthread
    rw [splitWorld, threads_set_self] at hthread
    cases hthread
    refine ⟨rfl, fun path _ => Or.inl ?_⟩
    rw [fileAt_emptyPart]
    have hreads : (splitWorld [] 1).reads plainIo ⟨[]⟩ path =
        readWorkfile plainIo (stagedWorld []).inner path := rfl
    rw [hreads, readWorkfile, live_stagedWorld]
    split_ifs <;> rfl
  · intro rotation l cutoff hthread hl _ path slot _ _ hown
    have hthread : ((splitWorld [] 1).set 0 (.rotating (emptyRotation 1))).threads 0 =
      .rotating rotation := hthread
    rw [threads_set_self] at hthread
    cases hthread
    cases hl
    exact hown
  · intro rotation view owners hthread
    rw [builtWorld, threads_set_self] at hthread
    cases hthread
    exact Or.inl rfl

end

end Softfig.Mount
